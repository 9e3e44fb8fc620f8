import SharedValues.Proofs.Counting
import SharedValues.Proofs.Moves

/-!
Sound configurations: share counts are exact, contents and variables have their types, slots have
the published table of their type, and no cell is locked twice. Every move leads from a sound
configuration to a sound one. Giving values up is split into the loss of one piece after the other.
-/
namespace SharedValues

namespace Config

structure Sound (c : Config) : Prop where
  counted : Counted c.world.store c.total
  typed : ∀ id a, c.world.store.get? id = some a → HasType c.world.store a.role.content a.content
  allowed : ∀ id a, c.world.store.get? id = some a → a.role.Allowed c.world.registry
  bound : ∀ x ∈ c.world.bindings, HasType c.world.store x.2.type x.2.value
  locks : c.world.locks.Nodup

theorem total_add (w : World) (p h : Multiset Piece) :
    total ⟨w, p + h⟩ = p + total ⟨w, h⟩ := by
  simp only [total]
  abel

/-- Only the store, the locks and the hand make up the total. -/
theorem total_of_eq {w v : World} (h : Multiset Piece) (hs : v.store = w.store)
    (hl : v.locks = w.locks) : total ⟨v, h⟩ = total ⟨w, h⟩ := by
  simp only [total, World.pins, World.stored_of_eq hs hl, hl]

section changes

variable {w : World} {h h' : Multiset Piece} {id : Nat} {a : Allocation}

theorem total_put_shares (n : Nat) (ha : w.store.get? id = some a) :
    total ⟨{ w with store := w.store.put id { a with shares := n } }, h⟩ = total ⟨w, h⟩ := by
  simp only [total, World.stored_put_shares ha, World.pins]

theorem total_allocate (role : Role) (content : Value) (hl : w.store.next ∉ w.locks) :
    total ⟨w.allocate role content, h⟩ = total ⟨w, content.pieces + h⟩ := by
  have hp : (w.allocate role content).pins = w.pins := rfl
  simp only [total, World.stored_allocate _ _ hl, hp]
  abel

theorem total_exchange {content : Value} (ha : w.store.get? id = some a) (hl : id ∉ w.locks)
    (hh : h + a.content.pieces = content.pieces + h') :
    total ⟨{ w with store := w.store.put id { a with content } }, h'⟩ = total ⟨w, h⟩ := by
  have h₁ := World.stored_put { a with content } ha hl
  have h₂ : total ⟨{ w with store := w.store.put id { a with content } }, h'⟩ +
      a.content.pieces = total ⟨w, h⟩ + a.content.pieces := by
    calc total ⟨{ w with store := w.store.put id { a with content } }, h'⟩ + a.content.pieces
      _ = { w with store := w.store.put id { a with content } }.stored + a.content.pieces +
          w.pins + h' := by simp only [total, World.pins]; abel
      _ = w.stored + w.pins + (content.pieces + h') := by rw [h₁]; abel
      _ = total ⟨w, h⟩ + a.content.pieces := by rw [← hh]; simp only [total]; abel
  exact add_right_cancel h₂

theorem total_lock (ha : w.store.get? id = some a) (hl : id ∉ w.locks) :
    total ⟨{ w with locks := id :: w.locks }, a.content.pieces + h⟩ =
      total ⟨w, {.handle ⟨.cell, id⟩} + h⟩ := by
  have hp : { w with locks := id :: w.locks }.pins = {.handle ⟨.cell, id⟩} + w.pins := rfl
  simp only [total, ← World.stored_lock ha hl, hp]
  abel

theorem total_rewrite {content : Value} (hl : id ∈ w.locks) :
    total ⟨{ w with store := w.store.put id { a with content } }, h⟩ = total ⟨w, h⟩ := by
  simp only [total, World.stored_put_locked _ hl, World.pins]

theorem total_unlock (ha : w.store.get? id = some a) (hl : id ∈ w.locks) (hn : w.locks.Nodup) :
    total ⟨{ w with locks := w.locks.erase id }, {.handle ⟨.cell, id⟩} + h⟩ =
      total ⟨w, a.content.pieces + h⟩ := by
  simp only [total, World.stored_unlock ha hl hn, World.pins_unlock hl]
  abel

theorem destroy_store_locks (w : World) (id : Nat) (a : Allocation) :
    (w.destroy id a).locks = w.locks ∧ (w.destroy id a).bindings = w.bindings ∧
      (w.destroy id a).registry = w.registry := by
  unfold World.destroy
  split <;> exact ⟨rfl, rfl, rfl⟩

/-- What a destroyed allocation owned is in hand. -/
theorem total_destroy (ha : w.store.get? id = some a) (hl : id ∉ w.locks) :
    total ⟨w.destroy id a, a.content.pieces + h⟩ = total ⟨w, h⟩ := by
  rw [total_of_eq (w := { w with store := w.store.erase id }) _ (World.destroy_store w id a)
    (destroy_store_locks w id a).1]
  simp only [total, ← World.stored_erase ha hl, World.pins]
  abel

end changes

theorem mem_total_of_hand {c : Config} {p : Piece} (h : p ∈ c.hand) : p ∈ c.total := by
  simp [total, h]

theorem mem_total_of_stored {c : Config} {id : Nat} {a : Allocation} {p : Piece}
    (hl : id ∉ c.world.locks) (ha : c.world.store.get? id = some a) (hp : p ∈ a.content.pieces) :
    p ∈ c.total := by
  have := World.mem_stored.mpr ⟨id, a, hl, ha, hp⟩
  simp [total, this]

end Config

open Config

/-- Giving up one piece: a probe is dropped, a share that is not the last one goes, or the last one
goes and what the allocation owned comes to hand. -/
inductive Loss : Config → Config → Prop where
  | probe {w : World} {h h' : Multiset Piece} (p : Probe) (hh : h = {.probe p} + h') :
    Loss ⟨w, h⟩ ⟨w.record (.dropped p), h'⟩
  | share {w : World} {h h' : Multiset Piece} {k : HandleKind} {id : Nat} {a : Allocation}
    (ha : w.store.get? id = some a) (h1 : 1 < a.shares) (hh : h = {.handle ⟨k, id⟩} + h') :
    Loss ⟨w, h⟩ ⟨{ w with store := w.store.put id { a with shares := a.shares - 1 } }, h'⟩
  | last {w : World} {h h' : Multiset Piece} {k : HandleKind} {id : Nat} {a : Allocation}
    (ha : w.store.get? id = some a) (h1 : a.shares ≤ 1) (hh : h = {.handle ⟨k, id⟩} + h') :
    Loss ⟨w, h⟩ ⟨w.destroy id a, a.content.pieces + h'⟩

/-- A locked cell is held by its lock, so a handle in hand is not the last one. -/
theorem Counted.not_locked_of_last {w : World} {h : Multiset Piece} {k : HandleKind} {id : Nat}
    {a : Allocation} (hc : Counted w.store (total ⟨w, {.handle ⟨k, id⟩} + h⟩))
    (ha : w.store.get? id = some a) (h1 : a.shares ≤ 1) : id ∉ w.locks := by
  intro hl
  rw [total_add] at hc
  have h₂ : Piece.handle ⟨.cell, id⟩ ∈ total ⟨w, h⟩ := by
    have : Piece.handle ⟨.cell, id⟩ ∈ w.pins := by simpa [World.pins] using hl
    simp [total, this]
  exact hc.target_ne_of_last ha h1 h₂ rfl

/-- Losing a piece leaves exact counts, whatever the types of the contents are. -/
theorem Loss.counted {c d : Config} (h : Loss c d) (hc : Counted c.world.store c.total) :
    Counted d.world.store d.total := by
  cases h with
  | @probe w h h' p hh =>
    subst hh
    rw [total_add, Counted.probe_iff] at hc
    have e : total ⟨w.record (.dropped p), h'⟩ = total ⟨w, h'⟩ := total_of_eq h' rfl rfl
    rwa [e]
  | @share w h h' k id a ha h1 hh =>
    subst hh
    rw [total_add] at hc
    rw [total_put_shares _ ha]
    exact hc.letGo ha h1
  | @last w h h' k id a ha h1 hh =>
    subst hh
    have hl := hc.not_locked_of_last ha h1
    rw [total_add] at hc
    rw [total_destroy ha hl, World.destroy_store]
    exact hc.last ha h1

theorem Role.Allowed.mono {r r' : Registry} {role : Role} (h : role.Allowed r)
    (hr : ∀ t table, r.find? t = some table → r'.find? t = some table) : role.Allowed r' := by
  cases role with
  | slot table type => exact ⟨hr type table h.1, h.2⟩
  | _ => exact h

/-- A published table stays. -/
theorem Registry.find?_enter {r : Registry} {t t' : Ty} {table : Table}
    (h : r.find? t' = some table) : (r.enter t).2.find? t' = some table := by
  unfold Registry.enter
  split
  · exact h
  · simp only [Registry.find?, List.find?_append] at h ⊢
    rw [h]
    rfl

namespace Config.Sound

/-- What has to be shown of a move: the counts, and the types of what is new. -/
theorem step {c d : Config} (hs : c.Sound) (counted : Counted d.world.store d.total)
    (he : c.world.store.Evolves d.world.store)
    (hr : ∀ t table, c.world.registry.find? t = some table → d.world.registry.find? t = some table)
    (hnew : ∀ id b, d.world.store.get? id = some b →
      (HasType d.world.store b.role.content b.content ∧ b.role.Allowed d.world.registry) ∨
        ∃ a, c.world.store.get? id = some a ∧ b.role = a.role ∧ b.content = a.content)
    (hb : ∀ x ∈ d.world.bindings, x ∈ c.world.bindings) (hl : d.world.locks.Nodup) : d.Sound := by
  refine ⟨counted, fun id b hb => ?_, fun id b hb => ?_, fun x hx => ?_, hl⟩
  · rcases hnew id b hb with h | ⟨a, ha, er, ec⟩
    · exact h.1
    · rw [er, ec]
      exact (hs.typed id a ha).evolve he
  · rcases hnew id b hb with h | ⟨a, ha, er, -⟩
    · exact h.2
    · rw [er]
      exact (hs.allowed id a ha).mono hr
  · exact (hs.bound x (hb x hx)).evolve he

/-- A move that leaves the store as it is. -/
theorem of_store_eq {c d : Config} (hs : c.Sound) (es : d.world.store = c.world.store)
    (counted : Counted d.world.store d.total)
    (hr : ∀ t table, c.world.registry.find? t = some table → d.world.registry.find? t = some table)
    (hb : d.world.bindings = c.world.bindings) (hl : d.world.locks.Nodup) : d.Sound := by
  refine hs.step counted ?_ hr (fun id b h => .inr ⟨b, ?_, rfl, rfl⟩) (fun x hx => ?_) hl
  · rw [es]
    exact .refl _
  · rwa [es] at h
  · rwa [hb] at hx

/-- A move that changes one allocation, but not its role. -/
theorem of_put {w : World} {h h' : Multiset Piece} {id : Nat} {a b : Allocation}
    (hs : Sound ⟨w, h⟩) (ha : w.store.get? id = some a) (hr : b.role = a.role)
    (hc : b.content = a.content ∨ HasType w.store a.role.content b.content)
    (counted : Counted (w.store.put id b) (total ⟨{ w with store := w.store.put id b }, h'⟩)) :
    Sound ⟨{ w with store := w.store.put id b }, h'⟩ := by
  have he : w.store.Evolves (w.store.put id b) := .put ha hr
  refine hs.step counted he (fun _ _ ht => ht) (fun other x hx => ?_) (fun _ hx => hx) hs.locks
  rcases Store.get?_put_cases hx with ⟨rfl, rfl⟩ | ⟨-, hx⟩
  · rcases hc with hc | hc
    · exact .inr ⟨a, ha, hr, hc⟩
    · rw [← hr] at hc
      exact .inl ⟨hc.evolve he, by rw [hr]; exact hs.allowed other a ha⟩
  · exact .inr ⟨x, hx, rfl, rfl⟩

/-- The counts depend on the store, the locks and the hand only. -/
theorem counted_of_eq {w v : World} {h : Multiset Piece} (hs : Sound ⟨w, h⟩)
    (es : v.store = w.store) (el : v.locks = w.locks) : Counted v.store (total ⟨v, h⟩) := by
  rw [total_of_eq h es el, es]
  exact hs.counted

/-- Losing a piece leaves a sound configuration. -/
theorem loss {c d : Config} (h : Loss c d) (hs : c.Sound) : d.Sound := by
  have hc := h.counted hs.counted
  cases h with
  | probe => exact hs.of_store_eq rfl hc (fun _ _ ht => ht) rfl hs.locks
  | share ha => exact hs.of_put ha rfl (.inl rfl) hc
  | @last w h h' k id a ha h1 hh =>
    obtain ⟨el, eb, er⟩ := destroy_store_locks w id a
    have es := World.destroy_store w id a
    refine hs.step hc (by rw [es]; exact .erase _ _) (fun _ _ ht => by rwa [er]) (fun other b hb => ?_)
      (fun _ hx => by rwa [eb] at hx) (by rw [el]; exact hs.locks)
    rw [es] at hb
    exact .inr ⟨b, (Store.get?_erase_cases hb).2, rfl, rfl⟩

/-- Giving values up is losing one piece after the other. -/
theorem losses_release (vs : List Value) (w : World) (h : Multiset Piece)
    (hs : Sound ⟨w, Value.piecesOf vs + h⟩) :
    Relation.ReflTransGen Loss ⟨w, Value.piecesOf vs + h⟩ ⟨w.release vs, h⟩ := by
  fun_induction World.release vs w with
  | case1 w => simpa using Relation.ReflTransGen.refl
  | case2 s rest w ih =>
    simp only [Value.piecesOf_cons, Value.pieces_scalar, zero_add] at hs ⊢
    exact ih hs
  | case3 p rest w ih =>
    simp only [Value.piecesOf_cons, Value.pieces_probe, add_assoc] at hs ⊢
    have hl : Loss ⟨w, {.probe p} + (Value.piecesOf rest + h)⟩ _ := .probe p rfl
    exact .head hl (ih (hs.loss hl))
  | case4 k rest w ih =>
    simp only [Value.piecesOf_cons, Value.pieces_none, zero_add] at hs ⊢
    exact ih hs
  | case5 k id rest w hg ih =>
    -- a handle in hand points at a live allocation
    simp only [Value.piecesOf_cons, Value.pieces_some, add_assoc] at hs
    obtain ⟨a, ha, -⟩ := hs.counted.alive ⟨k, id⟩ (mem_total_of_hand (by simp))
    simp [hg] at ha
  | case6 k id rest w a ha h1 ih =>
    simp only [Value.piecesOf_cons, Value.pieces_some, add_assoc] at hs ih ⊢
    have hl : Loss ⟨w, {.handle ⟨k, id⟩} + (Value.piecesOf rest + h)⟩ _ := .last ha h1 rfl
    exact .head hl (ih (hs.loss hl))
  | case7 k id rest w a ha h1 ih =>
    simp only [Value.piecesOf_cons, Value.pieces_some, add_assoc] at hs ⊢
    have hl : Loss ⟨w, {.handle ⟨k, id⟩} + (Value.piecesOf rest + h)⟩ _ :=
      .share ha (Nat.lt_of_not_le h1) rfl
    exact .head hl (ih (hs.loss hl))
  | case8 shape parts rest w ih =>
    simp only [Value.piecesOf_cons, Value.pieces_node, Value.piecesOf_append] at hs ih ⊢
    exact ih hs

theorem losses {c d : Config} (h : Relation.ReflTransGen Loss c d) (hs : c.Sound) : d.Sound := by
  induction h with
  | refl => exact hs
  | tail _ h ih => exact ih.loss h

theorem release {w : World} {vs : List Value} {h : Multiset Piece}
    (hs : Sound ⟨w, Value.piecesOf vs + h⟩) : Sound ⟨w.release vs, h⟩ :=
  hs.losses (losses_release vs w h hs)

/-- A locked cell keeps being held while something is allocated. -/
theorem next_not_locked {c : Config} (hs : c.Sound) : c.world.store.next ∉ c.world.locks := by
  intro hl
  have hm : Piece.handle ⟨.cell, c.world.store.next⟩ ∈ c.total := by
    have : Piece.handle ⟨.cell, c.world.store.next⟩ ∈ c.world.pins := by
      simpa [World.pins] using hl
    simp [total, this]
  exact Nat.lt_irrefl _ (hs.counted.target_lt hm)

/-- Every move leads from a sound configuration to a sound one. -/
theorem move {s : Scope} {c d : Config} (h : Move s c d) (hs : c.Sound) : d.Sound := by
  cases h with
  | @report w h e he =>
    exact hs.of_store_eq rfl (hs.counted_of_eq rfl rfl) (fun _ _ ht => ht) rfl hs.locks
  | @publish w h t ht =>
    exact hs.of_store_eq rfl (hs.counted_of_eq rfl rfl) (fun _ _ ht => Registry.find?_enter ht) rfl
      hs.locks
  | @create w h p =>
    refine hs.of_store_eq rfl ?_ (fun _ _ ht => ht) rfl hs.locks
    rw [total_add]
    exact Counted.probe_iff.mpr (hs.counted_of_eq rfl rfl)
  | @retain w h id a ha =>
    refine hs.of_put ha rfl (.inl rfl) ?_
    rw [total_add, total_put_shares _ ha]
    exact hs.counted.retain ha
  | @allocate w h h' role content hr hc hh =>
    subst hh
    refine hs.step ?_ (.push _ _) (fun _ _ ht => ht) (fun id b hb => ?_) (fun _ hx => hx) hs.locks
    · rw [total_add, total_allocate _ _ hs.next_not_locked]
      exact hs.counted.push role content
    · rcases Store.get?_push_cases hb with ⟨rfl, rfl⟩ | hb
      · exact .inl ⟨hc.evolve (.push _ _), hr⟩
      · exact .inr ⟨b, hb, rfl, rfl⟩
  | release hh =>
    subst hh
    exact hs.release
  | @exchange w h h' id a content ha hk hl hc hh =>
    refine hs.of_put ha rfl (.inr hc) ?_
    rw [total_exchange ha hl hh]
    exact hs.counted.put ha rfl rfl
  | @lock w h h' id a ha hl hh =>
    subst hh
    refine hs.of_store_eq rfl ?_ (fun _ _ ht => ht) rfl (List.nodup_cons.mpr ⟨hl, hs.locks⟩)
    rw [total_lock ha hl]
    exact hs.counted
  | @rewrite w h id a content ha hl hc =>
    refine hs.of_put ha rfl (.inr hc) ?_
    rw [total_rewrite hl]
    exact hs.counted.put ha rfl rfl
  | @unlock w h h' id a ha hl hh =>
    subst hh
    refine hs.of_store_eq rfl ?_ (fun _ _ ht => ht) rfl (hs.locks.erase id)
    rw [total_unlock ha hl hs.locks]
    exact hs.counted
  | @bind w h vs hv =>
    exact ⟨hs.counted_of_eq rfl rfl, hs.typed, hs.allowed, hv, hs.locks⟩

theorem moves {S : Scope} {c d : Config} (h : Moves S c d) (hs : c.Sound) : d.Sound :=
  h.invariant (fun _ _ _ _ hm hc => hc.move hm) hs

end Config.Sound

end SharedValues
