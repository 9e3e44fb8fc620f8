import SharedValues.Proofs.Sound

/-!
What the trace and the list of births tell. Every probe that has come into being is held somewhere
or has been dropped, and the numbers agree. Every slot that has come into being is alive, or its end
has been reported once, with the type of its table. Both hold of the empty state and after every
move, so they hold throughout every run.
-/
namespace SharedValues

def Birth.probe? : Birth → Option Probe
  | .probe p => some p
  | .allocation .. => none

def Event.dropped? : Event → Option Probe
  | .dropped p => some p
  | _ => none

/-- The reported type, if the event is that the last share of the given slot was let go. -/
def Event.lastShareOf? (id : Nat) : Event → Option Ty
  | .lastShare slot type => if slot = id then some type else none
  | _ => none

/-- The types that are reported when an allocation ends: slots report the type of their table. -/
def Role.reported : Role → List Ty
  | .slot table _ => [table.type]
  | _ => []

/-- The role of the live allocation at an address. -/
def Store.role? (s : Store) (id : Nat) : Option Role :=
  (s.get? id).map (·.role)

namespace Store

theorem role?_of_get? {s : Store} {id : Nat} {a : Allocation} (h : s.get? id = some a) :
    s.role? id = some a.role := by
  simp [role?, h]

theorem role?_put {s : Store} {id : Nat} {a b : Allocation} (ha : s.get? id = some a)
    (hr : b.role = a.role) (other : Nat) : (s.put id b).role? other = s.role? other := by
  by_cases e : other = id
  · subst e
    simp [role?, get?_put_same b (lt_next_of_get? ha), ha, hr]
  · simp [role?, get?_put_other s b e]

theorem role?_erase (s : Store) (id other : Nat) :
    (s.erase id).role? other = if other = id then none else s.role? other := by
  by_cases e : other = id
  · subst e
    simp [role?]
  · simp [role?, get?_erase_other s e, e]

theorem role?_push (s : Store) (a : Allocation) (id : Nat) :
    (s.push a).role? id = if id = s.next then some a.role else s.role? id := by
  by_cases e : id = s.next
  · subst e
    simp [role?]
  · simp [role?, get?_push_of_ne s a e, e]

end Store

namespace World

/-- The probes that have come into being. -/
def born (w : World) : List Probe :=
  w.created.filterMap Birth.probe?

/-- The probes whose end has been reported. -/
def dropped (w : World) : List Probe :=
  w.trace.filterMap Event.dropped?

/-- The types that were reported when the last share of the given slot was let go. -/
def lastShares (w : World) (id : Nat) : List Ty :=
  w.trace.filterMap (Event.lastShareOf? id)

theorem lastShares_record (w : World) (e : Event) (id : Nat) :
    (w.record e).lastShares id = w.lastShares id ++ (e.lastShareOf? id).toList := by
  simp only [lastShares, record, List.filterMap_append]
  cases h : e.lastShareOf? id <;> simp [h]

theorem dropped_record (w : World) (e : Event) :
    (w.record e).dropped = w.dropped ++ e.dropped?.toList := by
  simp only [dropped, record, List.filterMap_append]
  cases h : e.dropped? <;> simp [h]

theorem lastShares_destroy (w : World) (id : Nat) (a : Allocation) (other : Nat) :
    (w.destroy id a).lastShares other =
      w.lastShares other ++ if other = id then a.role.reported else [] := by
  cases hr : a.role with
  | slot table type =>
    by_cases e : other = id
    · subst e
      simp [destroy, hr, lastShares, recordAll, Event.lastShareOf?, Role.reported]
    · simp [destroy, hr, lastShares, recordAll, Event.lastShareOf?, e, Ne.symm e]
  | _ => simp [destroy, hr, lastShares, Role.reported]

theorem dropped_destroy (w : World) (id : Nat) (a : Allocation) :
    (w.destroy id a).dropped = w.dropped := by
  unfold destroy
  split <;> simp [dropped, recordAll, Event.dropped?]

theorem created_destroy (w : World) (id : Nat) (a : Allocation) :
    (w.destroy id a).created = w.created := by
  unfold destroy
  split <;> rfl

end World

theorem Event.lastShareOf?_report {e : Event} (h : e.isReport) (id : Nat) :
    e.lastShareOf? id = none := by
  cases e <;> simp_all [isReport, lastShareOf?]

theorem Event.dropped?_report {e : Event} (h : e.isReport) : e.dropped? = none := by
  cases e <;> simp_all [isReport, dropped?]

/-- The births of allocations and the reports of slots fit together: addresses are given once, every
live allocation has the role it was born in, and the end of an allocation is reported exactly when
it is no longer alive. -/
structure World.Recorded (w : World) : Prop where
  below : ∀ id r, .allocation id r ∈ w.created → id < w.store.next
  given : ∀ id < w.store.next, ∃ r, .allocation id r ∈ w.created
  unique : ∀ id r r', .allocation id r ∈ w.created → .allocation id r' ∈ w.created → r = r'
  alive : ∀ id r, w.store.role? id = some r → .allocation id r ∈ w.created
  ended : ∀ id r, .allocation id r ∈ w.created →
    w.lastShares id = if w.store.role? id = none then r.reported else []
  unborn : ∀ id, w.store.next ≤ id → w.lastShares id = []

namespace World.Recorded

variable {w v : World}

theorem empty : World.Recorded {} := by
  refine ⟨nofun, nofun, nofun, fun id r h => ?_, nofun, fun _ _ => rfl⟩
  simp [Store.role?, Store.get?] at h

/-- Nothing is born and nothing ends. -/
theorem of_eq (hw : w.Recorded) (hn : v.store.next = w.store.next)
    (hr : ∀ id, v.store.role? id = w.store.role? id)
    (hc : ∀ id r, .allocation id r ∈ v.created ↔ .allocation id r ∈ w.created)
    (ht : ∀ id, v.lastShares id = w.lastShares id) : v.Recorded := by
  refine ⟨fun id r h => ?_, fun id h => ?_, fun id r r' h h' => ?_, fun id r h => ?_,
    fun id r h => ?_, fun id h => ?_⟩
  · rw [hn]
    exact hw.below id r ((hc id r).mp h)
  · obtain ⟨r, hr⟩ := hw.given id (by rwa [← hn])
    exact ⟨r, (hc id r).mpr hr⟩
  · exact hw.unique id r r' ((hc id r).mp h) ((hc id r').mp h')
  · exact (hc id r).mpr (hw.alive id r (by rw [← hr, h]))
  · rw [ht, hr]
    exact hw.ended id r ((hc id r).mp h)
  · rw [ht]
    exact hw.unborn id (by rwa [← hn])

theorem put {id : Nat} {a b : Allocation} (hw : w.Recorded) (ha : w.store.get? id = some a)
    (hr : b.role = a.role) : World.Recorded { w with store := w.store.put id b } :=
  hw.of_eq (by simp) (Store.role?_put ha hr) (fun _ _ => Iff.rfl) fun _ => rfl

theorem record {e : Event} (hw : w.Recorded) (he : ∀ id, e.lastShareOf? id = none) :
    (w.record e).Recorded :=
  hw.of_eq rfl (fun _ => rfl) (fun _ _ => Iff.rfl) fun id => by simp [lastShares_record, he]

theorem allocate (hw : w.Recorded) (role : Role) (content : Value) :
    (w.allocate role content).Recorded := by
  have hb : ∀ id r, .allocation id r ∈ (w.allocate role content).created →
      .allocation id r ∈ w.created ∨ id = w.store.next ∧ r = role := by
    simp [World.allocate]
  have hn : (w.allocate role content).store.next = w.store.next + 1 := Store.next_push _ _
  have hr : ∀ id, (w.allocate role content).store.role? id =
      if id = w.store.next then some role else w.store.role? id := Store.role?_push _ _
  refine ⟨fun id r h => ?_, fun id h => ?_, fun id r r' h h' => ?_, fun id r h => ?_,
    fun id r h => ?_, fun id h => ?_⟩
  · rcases hb id r h with h | ⟨rfl, -⟩
    · have := hw.below id r h
      omega
    · omega
  · rcases Nat.lt_succ_iff_lt_or_eq.mp (hn ▸ h) with h | rfl
    · obtain ⟨r, hr⟩ := hw.given id h
      exact ⟨r, by simp [World.allocate, hr]⟩
    · exact ⟨role, by simp [World.allocate]⟩
  · rcases hb id r h with h₁ | ⟨e₁, rfl⟩ <;> rcases hb id r' h' with h₂ | ⟨e₂, rfl⟩
    · exact hw.unique id r r' h₁ h₂
    · exact absurd (hw.below id r h₁) (by omega)
    · exact absurd (hw.below id r' h₂) (by omega)
    · rfl
  · rw [hr] at h
    split at h
    next e =>
      cases h
      simp [World.allocate, e]
    next =>
      have := hw.alive id r h
      simp [World.allocate, this]
  · rw [hr]
    rcases hb id r h with h | ⟨rfl, rfl⟩
    · have := hw.below id r h
      rw [if_neg (Nat.ne_of_lt this)]
      exact hw.ended id r h
    · rw [if_pos rfl, if_neg (by simp)]
      exact hw.unborn _ (Nat.le_refl _)
  · exact hw.unborn id (by omega)

/-- The end of an allocation is reported when it is destroyed, and was not before. -/
theorem destroy {id : Nat} {a : Allocation} (hw : w.Recorded) (ha : w.store.get? id = some a) :
    (w.destroy id a).Recorded := by
  have hr : ∀ other, (w.destroy id a).store.role? other =
      if other = id then none else w.store.role? other := fun other => by
    rw [destroy_store, Store.role?_erase]
  have hn : (w.destroy id a).store.next = w.store.next := by simp
  have hc := created_destroy w id a
  refine ⟨fun other r h => ?_, fun other h => ?_, fun other r r' h h' => ?_,
    fun other r h => ?_, fun other r h => ?_, fun other h => ?_⟩
  · rw [hn]
    exact hw.below other r (hc ▸ h)
  · obtain ⟨r, hr⟩ := hw.given other (by rwa [← hn])
    exact ⟨r, by rwa [hc]⟩
  · exact hw.unique other r r' (hc ▸ h) (hc ▸ h')
  · rw [hr] at h
    split at h
    · cases h
    · rw [hc]
      exact hw.alive other r h
  · rw [lastShares_destroy, hr]
    have h' := hw.ended other r (hc ▸ h)
    by_cases e : other = id
    · subst e
      have ea := Store.role?_of_get? ha
      obtain rfl : a.role = r := hw.unique _ _ _ (hw.alive _ _ ea) (hc ▸ h)
      rw [h', ea]
      simp
    · simpa [e] using h'
  · have := Store.lt_next_of_get? ha
    rw [lastShares_destroy, hw.unborn other (by omega), if_neg (by omega), List.append_nil]

theorem loss {c d : Config} (h : Loss c d) (hw : c.world.Recorded) : d.world.Recorded := by
  cases h with
  | probe p hh => exact hw.record fun _ => rfl
  | share ha h1 hh => exact hw.put ha rfl
  | last ha h1 hh => exact hw.destroy ha

theorem losses {c d : Config} (h : Relation.ReflTransGen Loss c d) (hw : c.world.Recorded) :
    d.world.Recorded := by
  induction h with
  | refl => exact hw
  | tail _ h ih => exact ih.loss h

theorem move {s : Scope} {c d : Config} (h : Move s c d) (hs : c.Sound)
    (hw : c.world.Recorded) : d.world.Recorded := by
  cases h with
  | report e he => exact hw.record (Event.lastShareOf?_report he)
  | @publish w h t ht =>
    have h₁ : World.Recorded { w with registry := (w.registry.enter t).2 } :=
      hw.of_eq rfl (fun _ => rfl) (fun _ _ => Iff.rfl) fun _ => rfl
    exact h₁.record fun _ => rfl
  | create p =>
    exact hw.of_eq rfl (fun _ => rfl) (fun id r => by simp) fun _ => rfl
  | retain ha => exact hw.put ha rfl
  | @allocate w h h' role content hr hc hh => exact hw.allocate role content
  | @release w h h' vs hh =>
    subst hh
    exact hw.losses (hs.losses_release vs w h')
  | exchange ha => exact hw.put ha rfl
  | rewrite ha => exact hw.put ha rfl
  | lock | unlock | bind =>
    exact hw.of_eq rfl (fun _ => rfl) (fun _ _ => Iff.rfl) fun _ => rfl

end World.Recorded

/-- Of each probe, as many have come into being as have been dropped and are still held. -/
def Config.Balanced (c : Config) : Prop :=
  ∀ p, c.world.born.count p = c.world.dropped.count p + c.total.count (.probe p)

namespace Config.Balanced

theorem empty : Config.Balanced ⟨{}, 0⟩ := by
  intro p
  simp [World.born, World.dropped, Config.total, World.stored, World.pins, Store.next]

theorem count_handle (p : Probe) (h : Handle) (P : Multiset Piece) :
    ({.handle h} + P : Multiset Piece).count (.probe p) = P.count (.probe p) := by
  simp

/-- No probe comes into being and none is dropped. -/
theorem of_eq {c d : Config} (hc : c.Balanced) (hb : d.world.born = c.world.born)
    (hd : d.world.dropped = c.world.dropped)
    (ht : ∀ p, d.total.count (.probe p) = c.total.count (.probe p)) : d.Balanced := by
  intro p
  rw [hb, hd, ht]
  exact hc p

theorem record {w : World} {h : Multiset Piece} {e : Event} (hc : Config.Balanced ⟨w, h⟩)
    (he : e.dropped? = none) : Config.Balanced ⟨w.record e, h⟩ := by
  have ht : total ⟨w.record e, h⟩ = total ⟨w, h⟩ := total_of_eq h rfl rfl
  refine hc.of_eq rfl ?_ fun p => by rw [ht]
  simp [World.dropped_record, he]

theorem loss {c d : Config} (h : Loss c d) (hs : c.Sound) (hc : c.Balanced) : d.Balanced := by
  cases h with
  | @probe w h h' p hh =>
    subst hh
    intro q
    have hq := hc q
    have e : total ⟨w.record (.dropped p), h'⟩ = total ⟨w, h'⟩ := total_of_eq h' rfl rfl
    rw [total_add, Multiset.count_add, Multiset.count_singleton] at hq
    rw [e, World.dropped_record]
    show w.born.count q = (w.dropped ++ [p]).count q + _
    rw [hq, List.count_append, List.count_singleton]
    by_cases epq : p = q
    · subst epq
      simp
      omega
    · simp [epq, Ne.symm epq]
  | @share w h h' k id a ha h1 hh =>
    subst hh
    exact hc.of_eq rfl rfl fun p => by rw [total_put_shares _ ha, total_add, count_handle]
  | @last w h h' k id a ha h1 hh =>
    subst hh
    refine hc.of_eq ?_ (World.dropped_destroy w id a) fun p => ?_
    · simp only [World.born, World.created_destroy]
    · rw [total_destroy ha (hs.counted.not_locked_of_last ha h1), total_add, count_handle]

theorem losses {c d : Config} (h : Relation.ReflTransGen Loss c d) (hs : c.Sound)
    (hc : c.Balanced) : d.Balanced := by
  induction h with
  | refl => exact hc
  | tail hl h ih => exact ih.loss h (hs.losses hl)

theorem move {s : Scope} {c d : Config} (h : Move s c d) (hs : c.Sound) (hc : c.Balanced) :
    d.Balanced := by
  cases h with
  | report e he => exact hc.record (Event.dropped?_report he)
  | @publish w h t ht =>
    have h₁ : Config.Balanced ⟨{ w with registry := (w.registry.enter t).2 }, h⟩ :=
      hc.of_eq rfl rfl fun _ => congrArg _ (total_of_eq h rfl rfl)
    exact h₁.record rfl
  | @create w h p =>
    intro q
    have e : total ⟨{ w with created := w.created ++ [.probe p] }, h⟩ = total ⟨w, h⟩ :=
      total_of_eq h rfl rfl
    have hb : World.born { w with created := w.created ++ [.probe p] } = w.born ++ [p] := by
      simp [World.born, Birth.probe?]
    have hq : w.born.count q = w.dropped.count q + (total ⟨w, h⟩).count (.probe q) := hc q
    rw [total_add, e, Multiset.count_add, Multiset.count_singleton, hb, List.count_append, hq,
      List.count_singleton]
    show _ = w.dropped.count q + _
    by_cases epq : p = q
    · subst epq
      simp
      omega
    · simp [epq, Ne.symm epq]
  | @retain w h id a ha =>
    exact hc.of_eq rfl rfl fun p => by rw [total_add, total_put_shares _ ha, count_handle]
  | @allocate w h h' role content hr ht hh =>
    subst hh
    refine hc.of_eq ?_ rfl fun p => ?_
    · simp [World.born, World.allocate, Birth.probe?]
    · rw [total_add, total_allocate _ _ hs.next_not_locked, count_handle]
  | @release w h h' vs hh =>
    subst hh
    exact hc.losses (hs.losses_release vs w h') hs
  | exchange ha hk hl ht hh => exact hc.of_eq rfl rfl fun p => by rw [total_exchange ha hl hh]
  | lock ha hl hh =>
    subst hh
    exact hc.of_eq rfl rfl fun p => by rw [total_lock ha hl]
  | rewrite ha hl ht => exact hc.of_eq rfl rfl fun p => by rw [total_rewrite hl]
  | unlock ha hl hh =>
    subst hh
    exact hc.of_eq rfl rfl fun p => by rw [total_unlock ha hl hs.locks]
  | bind hv => exact hc.of_eq rfl rfl fun _ => congrArg _ (total_of_eq _ rfl rfl)

end Config.Balanced

/-- All that is known of the configurations of a run. -/
structure Config.Chronicled (c : Config) : Prop where
  sound : c.Sound
  recorded : c.world.Recorded
  balanced : c.Balanced

namespace Config.Chronicled

theorem move {s : Scope} {c d : Config} (h : Move s c d) (hc : c.Chronicled) : d.Chronicled :=
  ⟨hc.sound.move h, hc.recorded.move h hc.sound, hc.balanced.move h hc.sound⟩

theorem moves {S : Scope} {c d : Config} (h : Moves S c d) (hc : c.Chronicled) : d.Chronicled :=
  h.invariant (fun _ _ _ _ hm hc => hc.move hm) hc

end Config.Chronicled

end SharedValues
