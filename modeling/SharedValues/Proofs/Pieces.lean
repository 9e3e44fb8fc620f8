import Mathlib.Algebra.BigOperators.Group.Finset.Basic
import Mathlib.Algebra.Order.Group.Multiset
import Mathlib.Tactic.Abel
import SharedValues.Variables

/-!
What values own: handles and probes, counted with repetitions and without their order. The pieces
of a state are those of its variables, those inside live allocations, and one handle for each
locked cell, whose content is then in the hands of whoever has locked it.
-/
namespace SharedValues

/-- The smallest things that can be owned. -/
inductive Piece where
  | handle (h : Handle)
  | probe (p : Probe)
  deriving DecidableEq, Repr

namespace Piece

/-- It is a handle to the given address. -/
def PointsAt (id : Nat) : Piece → Prop
  | .handle h => h.target = id
  | .probe _ => False

@[simp] theorem pointsAt_handle (id : Nat) (h : Handle) :
    (Piece.handle h).PointsAt id ↔ h.target = id := Iff.rfl
@[simp] theorem pointsAt_probe (id : Nat) (p : Probe) : ¬(Piece.probe p).PointsAt id := nofun

instance (id : Nat) : DecidablePred (PointsAt id)
  | .handle h => inferInstanceAs (Decidable (h.target = id))
  | .probe _ => .isFalse nofun

end Piece

/-- What holds of a node if it holds of its parts holds of every value. -/
@[elab_as_elim]
theorem Value.induction {motive : Value → Prop} (scalar : ∀ x, motive (.scalar x))
    (probe : ∀ p, motive (.probe p)) (handle : ∀ k target, motive (.handle k target))
    (node : ∀ shape parts, (∀ v ∈ parts, motive v) → motive (.node shape parts)) :
    ∀ v, motive v
  | .scalar x => scalar x
  | .probe p => probe p
  | .handle k target => handle k target
  | .node shape parts => node shape parts fun v _ => Value.induction scalar probe handle node v

namespace Value

def pieces (v : Value) : Multiset Piece :=
  ↑(v.handles.map Piece.handle ++ v.probes.map Piece.probe)

def piecesOf (vs : List Value) : Multiset Piece :=
  (vs.map pieces).sum

@[simp] theorem piecesOf_nil : piecesOf [] = 0 := rfl

@[simp] theorem piecesOf_cons (v : Value) (vs : List Value) :
    piecesOf (v :: vs) = v.pieces + piecesOf vs := by
  simp [piecesOf]

@[simp] theorem piecesOf_append (vs ws : List Value) :
    piecesOf (vs ++ ws) = piecesOf vs + piecesOf ws := by
  simp [piecesOf]

theorem piecesOf_perm {vs ws : List Value} (h : vs.Perm ws) : piecesOf vs = piecesOf ws :=
  (h.map pieces).sum_eq

@[simp] theorem pieces_scalar (s : Scalar) : (Value.scalar s).pieces = 0 := rfl
@[simp] theorem pieces_probe (p : Probe) : (Value.probe p).pieces = {.probe p} := rfl
@[simp] theorem pieces_none (kind : HandleKind) : (Value.handle kind none).pieces = 0 := rfl
@[simp] theorem pieces_some (kind : HandleKind) (id : Nat) :
    (Value.handle kind (some id)).pieces = {.handle ⟨kind, id⟩} := rfl

theorem coe_handlesOf (vs : List Value) :
    ((handlesOf vs).map Piece.handle ++ (probesOf vs).map Piece.probe : Multiset Piece) =
      piecesOf vs := by
  induction vs with
  | nil => rfl
  | cons v vs ih =>
    rw [piecesOf_cons, ← ih]
    simp only [handlesOf, probesOf, List.map_append, pieces, ← Multiset.coe_add]
    abel

@[simp] theorem pieces_node (shape : Shape) (parts : List Value) :
    (Value.node shape parts).pieces = piecesOf parts :=
  coe_handlesOf parts

theorem handle_mem_pieces {v : Value} {h : Handle} : .handle h ∈ v.pieces ↔ h ∈ v.handles := by
  simp [pieces]

end Value

namespace World

/-- What the live allocation at an address owns, unless it is locked. -/
def storedAt (w : World) (id : Nat) : Multiset Piece :=
  if id ∈ w.locks then 0
  else
    match w.store.get? id with
    | some a => a.content.pieces
    | none => 0

/-- What the live allocations own that are not locked. -/
def stored (w : World) : Multiset Piece :=
  ∑ id ∈ Finset.range w.store.next, w.storedAt id

/-- The handles through which the locked cells were reached. -/
def pins (w : World) : Multiset Piece :=
  ↑(w.locks.map fun id => Piece.handle ⟨.cell, id⟩)

/-- What the variables own. -/
def owned (w : World) : Multiset Piece :=
  Value.piecesOf (w.bindings.map (·.2.value))

theorem mem_of_find? {w : World} {name : String} {v : Variable} (h : w.find? name = some v) :
    (name, v) ∈ w.bindings := by
  simp only [find?, List.lookup_eq_some_iff] at h
  obtain ⟨l₁, l₂, hl, -⟩ := h
  simp [hl]

theorem pieces_le_owned {w : World} {x : String × Variable} (h : x ∈ w.bindings) :
    x.2.value.pieces ≤ w.owned := by
  obtain ⟨l₁, l₂, hl⟩ := List.append_of_mem h
  rw [owned, hl]
  simp only [List.map_append, List.map_cons, Value.piecesOf_append, Value.piecesOf_cons]
  exact (Multiset.le_add_right _ _).trans (Multiset.le_add_left _ _)

theorem storedAt_of_get? {w : World} {id : Nat} {a : Allocation} (hl : id ∉ w.locks)
    (ha : w.store.get? id = some a) : w.storedAt id = a.content.pieces := by
  simp [storedAt, hl, ha]

/-- If two states differ at one address only, so does what they store. -/
theorem stored_change {w v : World} {id : Nat} (hid : id < w.store.next)
    (hn : v.store.next = w.store.next)
    (ho : ∀ other, other ≠ id → v.storedAt other = w.storedAt other) :
    v.stored + w.storedAt id = w.stored + v.storedAt id := by
  have hm : id ∈ Finset.range w.store.next := Finset.mem_range.mpr hid
  have he : ∑ x ∈ (Finset.range w.store.next).erase id, v.storedAt x =
      ∑ x ∈ (Finset.range w.store.next).erase id, w.storedAt x :=
    Finset.sum_congr rfl fun x hx => ho x (Finset.ne_of_mem_erase hx)
  simp only [stored, hn]
  rw [← Finset.sum_erase_add _ _ hm, ← Finset.sum_erase_add _ w.storedAt hm, he]
  abel

/-- If two states agree at every address, they store the same. -/
theorem stored_congr {w v : World} (hn : v.store.next = w.store.next)
    (h : ∀ id, v.storedAt id = w.storedAt id) : v.stored = w.stored := by
  simp only [stored, hn]
  exact Finset.sum_congr rfl fun id _ => h id

theorem mem_stored {w : World} {p : Piece} :
    p ∈ w.stored ↔ ∃ id a, id ∉ w.locks ∧ w.store.get? id = some a ∧ p ∈ a.content.pieces := by
  simp only [stored, Multiset.mem_sum, Finset.mem_range]
  constructor
  · rintro ⟨id, -, hp⟩
    unfold storedAt at hp
    split at hp
    · simp at hp
    · next hl =>
      split at hp
      · next a ha => exact ⟨id, a, hl, ha, hp⟩
      · simp at hp
  · rintro ⟨id, a, hl, ha, hp⟩
    exact ⟨id, Store.lt_next_of_get? ha, by rwa [storedAt_of_get? hl ha]⟩

theorem stored_of_eq {w v : World} (hs : v.store = w.store) (hl : v.locks = w.locks) :
    v.stored = w.stored := by
  simp only [stored, storedAt, hs, hl]

/-- A change of the share count leaves what is stored. -/
theorem stored_put_shares {w : World} {id : Nat} {a b : Allocation} (ha : w.store.get? id = some a)
    (hb : b.content = a.content) : { w with store := w.store.put id b }.stored = w.stored := by
  refine stored_congr (by simp) fun other => ?_
  by_cases e : other = id
  · subst e
    simp [storedAt, ha, Store.get?_put_same b (Store.lt_next_of_get? ha), hb]
  · simp [storedAt, Store.get?_put_other w.store b e]

/-- The content of a locked cell is not counted as stored. -/
theorem stored_put_locked {w : World} {id : Nat} (b : Allocation) (hl : id ∈ w.locks) :
    { w with store := w.store.put id b }.stored = w.stored := by
  refine stored_congr (by simp) fun other => ?_
  by_cases e : other = id
  · subst e
    simp [storedAt, hl]
  · simp [storedAt, Store.get?_put_other w.store b e]

theorem stored_put {w : World} {id : Nat} {a : Allocation} (b : Allocation)
    (ha : w.store.get? id = some a) (hl : id ∉ w.locks) :
    { w with store := w.store.put id b }.stored + a.content.pieces =
      w.stored + b.content.pieces := by
  have hid := Store.lt_next_of_get? ha
  have h := stored_change (v := { w with store := w.store.put id b }) hid (by simp)
    fun other ho => by simp [storedAt, Store.get?_put_other w.store b ho]
  rwa [storedAt_of_get? hl ha, storedAt_of_get? (w := { w with store := w.store.put id b }) hl
    (Store.get?_put_same b hid)] at h

theorem stored_erase {w : World} {id : Nat} {a : Allocation} (ha : w.store.get? id = some a)
    (hl : id ∉ w.locks) :
    { w with store := w.store.erase id }.stored + a.content.pieces = w.stored := by
  have h := stored_change (v := { w with store := w.store.erase id }) (Store.lt_next_of_get? ha)
    (by simp) fun other ho => by simp [storedAt, Store.get?_erase_other w.store ho]
  rw [storedAt_of_get? hl ha] at h
  simpa [storedAt] using h

theorem stored_allocate {w : World} (role : Role) (content : Value) (hl : w.store.next ∉ w.locks) :
    (w.allocate role content).stored = w.stored + content.pieces := by
  have h₁ : ∀ id ∈ Finset.range w.store.next,
      (w.allocate role content).storedAt id = w.storedAt id := by
    intro id hid
    have : id ≠ w.store.next := Nat.ne_of_lt (Finset.mem_range.mp hid)
    simp [storedAt, allocate, Store.get?_push_of_ne w.store _ this]
  simp only [stored, allocate, Store.next_push]
  rw [Finset.sum_range_succ]
  exact congrArg₂ _ (Finset.sum_congr rfl h₁)
    (storedAt_of_get? (w := w.allocate role content) hl (Store.get?_push_next w.store _))

/-- Locking a cell takes its content out of what is stored. -/
theorem stored_lock {w : World} {id : Nat} {a : Allocation} (ha : w.store.get? id = some a)
    (hl : id ∉ w.locks) :
    { w with locks := id :: w.locks }.stored + a.content.pieces = w.stored := by
  have h := stored_change (v := { w with locks := id :: w.locks }) (Store.lt_next_of_get? ha) rfl
    fun other ho => by simp [storedAt, ho]
  rw [storedAt_of_get? hl ha] at h
  simpa [storedAt] using h

theorem stored_unlock {w : World} {id : Nat} {a : Allocation} (ha : w.store.get? id = some a)
    (hl : id ∈ w.locks) (hn : w.locks.Nodup) :
    { w with locks := w.locks.erase id }.stored = w.stored + a.content.pieces := by
  have hl' : id ∉ w.locks.erase id := fun h => (hn.mem_erase_iff.mp h).1 rfl
  have h := stored_change (v := { w with locks := w.locks.erase id }) (Store.lt_next_of_get? ha)
    rfl fun other ho => by simp [storedAt, List.mem_erase_of_ne ho]
  rw [storedAt_of_get? (w := { w with locks := w.locks.erase id }) hl' ha] at h
  simpa [storedAt, hl] using h

theorem pins_unlock {w : World} {id : Nat} (hl : id ∈ w.locks) :
    w.pins = {.handle ⟨.cell, id⟩} + { w with locks := w.locks.erase id }.pins := by
  have h := (List.perm_cons_erase hl).map fun id => Piece.handle ⟨.cell, id⟩
  simpa [pins] using h

end World

end SharedValues
