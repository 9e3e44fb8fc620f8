import SharedValues.Release
import SharedValues.Value.Levels

/-!
Copies. A clone shares every allocation that the value holds. A deep copy builds new cells and
objects, also inside the ones it copies, and shares only function values and slots. Both run
through the parts in order; if one cannot be copied, the finished ones are given up. A clone of a
map has the same tree, which is copied node by node; a deep copy lines up all entries before it
builds a tree of its own.
-/
namespace SharedValues

/-- The two ways to copy. -/
inductive Depth where
  | shallow | deep
  deriving DecidableEq, Repr

namespace Depth

/-- The hook that probes take part in. -/
def hook : Depth → Hook
  | .shallow => .clone
  | .deep => .deep

/-- The shape of the copy. -/
def shape : Depth → Shape → Shape
  | .deep, .map levels => .map (Levels.packed levels.length)
  | _, shape => shape

/-- In which order the finished parts of an unfinished copy are given up. -/
def giveUp : Depth → Shape → List Value → List Value
  | .shallow, .map levels, finished => Levels.giveUp levels finished
  | _, shape, finished => shape.giveUp finished

theorem perm_giveUp (d : Depth) (shape : Shape) (finished : List Value) :
    (d.giveUp shape finished).Perm finished := by
  unfold giveUp
  split
  · exact Levels.perm_giveUp _ finished
  · exact Shape.perm_giveUp _ finished

end Depth

namespace Value

mutual

/-- Copy a value, given how a handle is copied. -/
def copyWith (d : Depth) (through : HandleKind → Nat → Run Nat) : Value → Run Value
  | .scalar s => pure (.scalar s)
  | .probe p => do
    Run.callHook d.hook p
    Run.create p
  | .handle kind none => pure (.handle kind none)
  | .handle kind (some id) => do
    let id' ← through kind id
    pure (.handle kind (some id'))
  | .node shape parts => do
    let parts' ← copyParts d through shape [] parts
    pure (.node (d.shape shape) parts')

def copyParts (d : Depth) (through : HandleKind → Nat → Run Nat) (shape : Shape)
    (done : List Value) : List Value → Run (List Value)
  | [] => pure done
  | v :: vs => do
    let v' ← Run.unwinding (d.giveUp shape done) (copyWith d through v)
    copyParts d through shape (done ++ [v']) vs

end

/-- A handle to the same allocation. -/
def share (kind : HandleKind) (id : Nat) : Run Nat := do
  Run.retain kind id
  pure id

def clone (v : Value) : Run Value :=
  v.copyWith .shallow share

/-- The deep copy of what a handle points at, following at most `hops` handles in a row. -/
def deepThrough : Nat → HandleKind → Nat → Run Nat
  | _, .slot, id => share .slot id
  | _, .callable, id => share .callable id
  | 0, .cell, _ | 0, .object, _ => throw .endless
  | hops + 1, kind, id => do
    let a ← Run.read kind id
    let content ← a.content.copyWith .deep (deepThrough hops)
    Run.allocate a.role content

def deepCopy (v : Value) : Run Value := do
  v.copyWith .deep (deepThrough (← get).hops)

end Value

end SharedValues
