import SharedValues.Value.Scalar

/-!
Values. A value is a tree of scalars, probes, handles and nodes; the shape of a node says what it
is, and its parts are what it owns. A handle points at an allocation of the store, and following
it is never part of the tree: `Value.handles` lists the handles that a value holds directly.
-/
namespace SharedValues

/-- The operations that a probe takes part in. -/
inductive Hook where
  | clone | eq | render | deep | sound | poke
  deriving DecidableEq, Repr

/-- A value that records what is done to it, and refuses one operation if `boom` names it. -/
structure Probe where
  id : Int
  boom : Option Hook
  deriving DecidableEq, Repr

/-- The four kinds of allocations. -/
inductive HandleKind where
  | slot | cell | object | callable
  deriving DecidableEq, Repr

structure Handle where
  kind : HandleKind
  target : Nat
  deriving DecidableEq, Repr

/-- The alternatives of the recursive sample type. -/
inductive Variant where
  | int | text | probe | seq | arr | map | opt | cell | any
  deriving DecidableEq, Repr

/-- What a node is. A map also has the levels of its entries. -/
inductive Shape where
  | sequence | tuple | none | some | box | entry
  | map (levels : List Nat)
  | meters | feet | cat | counter | dog | inventory
  | variant (v : Variant)
  deriving DecidableEq, Repr

inductive Value where
  | scalar (s : Scalar)
  | probe (p : Probe)
  | handle (kind : HandleKind) (target : Option Nat)
  | node (shape : Shape) (parts : List Value)
  deriving Repr

namespace Value

abbrev int (n : Int) : Value := .scalar (.int n)
abbrev text (s : String) : Value := .scalar (.text s)
abbrev unit : Value := .scalar .unit

mutual

def decEq : (a b : Value) → Decidable (a = b)
  | .scalar a, .scalar b =>
    if h : a = b then .isTrue (by rw [h]) else .isFalse (by simpa using h)
  | .probe a, .probe b =>
    if h : a = b then .isTrue (by rw [h]) else .isFalse (by simpa using h)
  | .handle k a, .handle l b =>
    if h : k = l ∧ a = b then .isTrue (by rw [h.1, h.2]) else .isFalse (by simpa using h)
  | .node s as, .node t bs =>
    if h : s = t then
      match decEqs as bs with
      | .isTrue hs => .isTrue (by rw [h, hs])
      | .isFalse hs => .isFalse (by simp [hs])
    else .isFalse (by simp [h])
  | .scalar _, .probe _ | .scalar _, .handle .. | .scalar _, .node ..
  | .probe _, .scalar _ | .probe _, .handle .. | .probe _, .node ..
  | .handle .., .scalar _ | .handle .., .probe _ | .handle .., .node ..
  | .node .., .scalar _ | .node .., .probe _ | .node .., .handle .. => .isFalse nofun

def decEqs : (as bs : List Value) → Decidable (as = bs)
  | [], [] => .isTrue rfl
  | a :: as, b :: bs =>
    match decEq a b with
    | .isTrue h =>
      match decEqs as bs with
      | .isTrue hs => .isTrue (by rw [h, hs])
      | .isFalse hs => .isFalse (by simp [hs])
    | .isFalse h => .isFalse (by simp [h])
  | [], _ :: _ | _ :: _, [] => .isFalse nofun

end

instance : DecidableEq Value := decEq

mutual

/-- The number of constructors of a value. -/
def size : Value → Nat
  | .scalar _ | .probe _ | .handle .. => 1
  | .node _ parts => 1 + sizes parts

def sizes : List Value → Nat
  | [] => 0
  | v :: vs => v.size + sizes vs

end

mutual

/-- The handles that a value holds without going through another one, with repetitions. -/
def handles : Value → List Handle
  | .scalar _ | .probe _ | .handle _ .none => []
  | .handle kind (.some target) => [⟨kind, target⟩]
  | .node _ parts => handlesOf parts

def handlesOf : List Value → List Handle
  | [] => []
  | v :: vs => v.handles ++ handlesOf vs

end

mutual

/-- The probes that a value owns without going through a handle. -/
def probes : Value → List Probe
  | .scalar _ | .handle .. => []
  | .probe p => [p]
  | .node _ parts => probesOf parts

def probesOf : List Value → List Probe
  | [] => []
  | v :: vs => v.probes ++ probesOf vs

end

theorem sizes_append (as bs : List Value) : sizes (as ++ bs) = sizes as + sizes bs := by
  induction as with
  | nil => simp [sizes]
  | cons a as ih => simp [sizes, ih, Nat.add_assoc]

end Value

namespace Shape

/-- A shape without its levels: what it says about the meaning of a node. -/
def meaning : Shape → Shape
  | .map _ => .map []
  | shape => shape

/-- In which order the finished parts of an unfinished node are given up: a tuple gives up the
last one first. -/
def giveUp (shape : Shape) (finished : List Value) : List Value :=
  match shape with
  | .tuple => finished.reverse
  | _ => finished

theorem perm_giveUp (shape : Shape) (finished : List Value) :
    (shape.giveUp finished).Perm finished := by
  unfold giveUp
  split
  · exact List.reverse_perm finished
  · exact .refl finished

end Shape

end SharedValues
