import SharedValues.Ty.Name
import SharedValues.Value.Basic

/-!
The store of shared allocations. An allocation is a role, the value it owns and the number of
shares that are held in it. Addresses are indices into one growing array and are never used
twice; an allocation that has been destroyed leaves its place empty.
-/
namespace SharedValues

/-- The operations of one type on erased values. The number tells published tables apart. -/
structure Table where
  id : Nat
  type : Ty
  deriving DecidableEq, Repr

/-- What a function value does. Its state, if any, is the value that its allocation owns. -/
inductive Code where
  | add (k : Int)
  | mul (k : Int)
  | tally
  | raise (message : String)
  | increment
  | square
  | byteCount
  | charCount
  deriving DecidableEq, Repr

inductive Role where
  | slot (table : Table) (type : Ty)
  | cell (elem : Ty)
  | object (interface : Interface) (type : Ty)
  | callable (code : Code)
  deriving DecidableEq, Repr

def Role.kind : Role → HandleKind
  | .slot .. => .slot
  | .cell _ => .cell
  | .object .. => .object
  | .callable _ => .callable

/-- A value that knows its type. -/
structure Payload where
  type : Ty
  value : Value
  deriving DecidableEq, Repr

/-- The value, if it is known to have the given type. -/
def Payload.as? (p : Payload) (t : Ty) : Option Value :=
  if p.type = t then some p.value else none

structure Allocation where
  role : Role
  content : Value
  shares : Nat
  deriving DecidableEq, Repr

structure Store where
  entries : Array (Option Allocation) := #[]
  deriving DecidableEq, Repr

namespace Store

/-- The address that the next allocation will have. -/
def next (s : Store) : Nat :=
  s.entries.size

def get? (s : Store) (id : Nat) : Option Allocation :=
  s.entries[id]?.join

def push (s : Store) (a : Allocation) : Store :=
  ⟨s.entries.push (some a)⟩

def put (s : Store) (id : Nat) (a : Allocation) : Store :=
  ⟨s.entries.setIfInBounds id (some a)⟩

def erase (s : Store) (id : Nat) : Store :=
  ⟨s.entries.setIfInBounds id none⟩

/-- How much the allocation at one place owns. -/
def load : Option Allocation → Nat
  | none => 0
  | some a => a.content.size

/-- How much the live allocations own together. -/
def weight (s : Store) : Nat :=
  s.entries.toList.foldr (load · + ·) 0

theorem lt_next_of_get? {s : Store} {id : Nat} {a : Allocation} (h : s.get? id = some a) :
    id < s.next := by
  unfold get? at h
  unfold next
  cases he : s.entries[id]? with
  | none => simp [he] at h
  | some e => exact (Array.getElem?_eq_some_iff.mp he).1

@[simp] theorem get?_push_next (s : Store) (a : Allocation) : (s.push a).get? s.next = some a := by
  simp [get?, push, next]

theorem get?_push_of_ne (s : Store) (a : Allocation) {id : Nat} (h : id ≠ s.next) :
    (s.push a).get? id = s.get? id := by
  have h' : id ≠ s.entries.size := h
  simp [get?, push, Array.getElem?_push, h']

@[simp] theorem next_push (s : Store) (a : Allocation) : (s.push a).next = s.next + 1 := by
  simp [next, push]

theorem get?_put_same {s : Store} {id : Nat} (a : Allocation) (h : id < s.next) :
    (s.put id a).get? id = some a := by
  have h' : id < s.entries.size := h
  simp [get?, put, h']

theorem get?_put_other (s : Store) {id other : Nat} (a : Allocation) (h : other ≠ id) :
    (s.put id a).get? other = s.get? other := by
  simp [get?, put, Ne.symm h]

@[simp] theorem next_put (s : Store) (id : Nat) (a : Allocation) : (s.put id a).next = s.next := by
  simp [next, put]

@[simp] theorem get?_erase_same (s : Store) (id : Nat) : (s.erase id).get? id = none := by
  simp [get?, erase, Array.getElem?_setIfInBounds]
  split <;> simp_all

theorem get?_erase_other (s : Store) {id other : Nat} (h : other ≠ id) :
    (s.erase id).get? other = s.get? other := by
  simp [get?, erase, Ne.symm h]

/-- Where the allocations of a store come from after a change at one address. -/
theorem get?_put_cases {s : Store} {id other : Nat} {b c : Allocation}
    (h : (s.put id b).get? other = some c) :
    other = id ∧ c = b ∨ other ≠ id ∧ s.get? other = some c := by
  by_cases e : other = id
  · subst e
    have hid : other < s.next := by simpa using Store.lt_next_of_get? h
    rw [get?_put_same b hid, Option.some.injEq] at h
    exact .inl ⟨rfl, h.symm⟩
  · rw [get?_put_other s b e] at h
    exact .inr ⟨e, h⟩

theorem get?_push_cases {s : Store} {id : Nat} {b c : Allocation}
    (h : (s.push b).get? id = some c) : id = s.next ∧ c = b ∨ s.get? id = some c := by
  by_cases e : id = s.next
  · subst e
    rw [get?_push_next, Option.some.injEq] at h
    exact .inl ⟨rfl, h.symm⟩
  · rw [get?_push_of_ne s b e] at h
    exact .inr h

theorem get?_erase_cases {s : Store} {id other : Nat} {c : Allocation}
    (h : (s.erase id).get? other = some c) : other ≠ id ∧ s.get? other = some c := by
  by_cases e : other = id
  · subst e
    simp at h
  · rw [get?_erase_other s e] at h
    exact ⟨e, h⟩

@[simp] theorem next_erase (s : Store) (id : Nat) : (s.erase id).next = s.next := by
  simp [next, erase]

theorem foldr_load_set (es : List (Option Allocation)) (i : Nat) (e d : Option Allocation)
    (h : es[i]? = some d) :
    (es.set i e).foldr (load · + ·) 0 + load d = es.foldr (load · + ·) 0 + load e := by
  induction es generalizing i with
  | nil => simp at h
  | cons x xs ih =>
    cases i with
    | zero =>
      obtain rfl : x = d := by simpa using h
      simp only [List.set_cons_zero, List.foldr_cons]
      omega
    | succ i =>
      have := ih i (by simpa using h)
      simp only [List.set_cons_succ, List.foldr_cons]
      omega

theorem getElem?_of_get? {s : Store} {id : Nat} {a : Allocation} (h : s.get? id = some a) :
    s.entries.toList[id]? = some (some a) := by
  unfold get? at h
  cases he : s.entries[id]? with
  | none => simp [he] at h
  | some e => simp_all

/-- Destroying an allocation takes away exactly what it owned. -/
theorem weight_erase {s : Store} {id : Nat} {a : Allocation} (h : s.get? id = some a) :
    (s.erase id).weight + a.content.size = s.weight := by
  have := foldr_load_set s.entries.toList id none (some a) (getElem?_of_get? h)
  simpa [weight, erase, load] using this

/-- A change of the share count or the role leaves the weight. -/
theorem weight_put {s : Store} {id : Nat} {a b : Allocation} (h : s.get? id = some a)
    (hc : b.content = a.content) : (s.put id b).weight = s.weight := by
  have := foldr_load_set s.entries.toList id (some b) (some a) (getElem?_of_get? h)
  have hl : load (some b) = load (some a) := congrArg Value.size hc
  simp only [weight, put, Array.toList_setIfInBounds]
  omega

end Store

end SharedValues
