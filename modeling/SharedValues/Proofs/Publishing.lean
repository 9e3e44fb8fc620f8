import SharedValues.Registry.Threads

/-!
Threads that ask for the table of one type: whatever the schedule, the table is published at most
once, and only if it was missing.
-/
namespace SharedValues.Registry

/-- Threads that ask for one type publish its table at most once, whatever the schedule. -/
structure System.Asks (s : System) (r : Registry) (t : Ty) : Prop where
  pending : ∀ x ∈ s.threads, ∀ type ∈ x.pending, type = t
  published : s.registry = r ∧ s.published = [] ∨
    r.find? t = none ∧ s.registry = (r.enter t).2 ∧ s.published = [t]

theorem find?_enter_self (r : Registry) (t : Ty) :
    (r.enter t).2.find? t = some (r.enter t).1 := by
  unfold enter
  split
  next h => exact h
  next h =>
    have h' : r.tables.find? (·.type == t) = none := h
    simp [find?, List.find?_append, h']

theorem enter_of_find? {r : Registry} {t : Ty} {table : Table}
    (h : r.find? t = some table) : r.enter t = (table, r) := by
  unfold enter
  rw [h]

theorem System.Asks.advance {s : System} {r : Registry} {t : Ty} (h : s.Asks r t)
    {i : Nat} {x : Thread} (hx : x ∈ s.threads) : (s.advance i x).Asks r t := by
  unfold System.advance
  split
  next => exact h
  next type rest hp =>
    obtain rfl : type = t := h.pending x hx type (by simp [hp])
    have hset : ∀ y : Thread, (∀ type' ∈ y.pending, type' = type) →
        ∀ z ∈ s.threads.set i y, ∀ type' ∈ z.pending, type' = type := by
      intro y hy z hz
      rcases List.mem_or_eq_of_mem_set hz with hz | rfl
      · exact h.pending z hz
      · exact hy
    have hrest : ∀ type' ∈ rest, type' = type :=
      fun type' ht => h.pending x hx type' (by simp [hp, ht])
    split
    next =>
      refine ⟨hset _ hrest, ?_⟩
      dsimp only
      rcases h.published with ⟨er, ep⟩ | ⟨hn, er, ep⟩
      · rw [er, ep]
        cases hf : r.find? type with
        | none => exact .inr ⟨rfl, rfl, by simp⟩
        | some table => exact .inl ⟨by rw [enter_of_find? hf], by simp⟩
      · have hf := find?_enter_self r type
        rw [er, ep, hf]
        exact .inr ⟨hn, by rw [enter_of_find? hf], by simp⟩
    next =>
      split
      next => exact ⟨hset _ hrest, h.published⟩
      next => exact ⟨hset _ fun type' ht => h.pending x hx type' ht, h.published⟩

theorem System.Asks.run {s : System} {r : Registry} {t : Ty} (h : s.Asks r t)
    (schedule : List Nat) : (s.run schedule).Asks r t := by
  induction schedule generalizing s with
  | nil => exact h
  | cons i schedule ih =>
    refine ih ?_
    unfold System.step
    split
    next x hx => exact h.advance (List.mem_of_getElem? hx)
    next => exact h

theorem asks_race (r : Registry) (t : Ty) (threads : Nat) : (r.race t threads).Asks r t := by
  refine System.Asks.run ⟨?_, .inl ⟨rfl, rfl⟩⟩ _
  intro x hx type ht
  rw [(List.mem_replicate.mp hx).2] at ht
  simpa using ht

end SharedValues.Registry
