import SharedValues.Copy

/-!
Shared cells: handles to a value that can be replaced. Reading or writing through a handle to
nothing is fatal.
-/
namespace SharedValues.Cell

/-- The address of the cell. A cell that is locked never becomes free while one waits for it. -/
def address (target : Option Nat) : Run Nat :=
  match target with
  | none => Run.fatal .invalidMemory
  | some id => do
    if id ∈ (← MonadState.get).locks then throw .deadlock
    pure id

def new (elem : Ty) (content : Value) : Run (Option Nat) := do
  let id ← Run.allocate (.cell elem) content
  pure (some id)

/-- What the cell holds, without a copy. -/
def peek (target : Option Nat) : Run Value := do
  let id ← address target
  let a ← Run.read .cell id
  pure a.content

/-- A clone of what the cell holds. -/
def get (target : Option Nat) : Run Value := do
  let content ← peek target
  content.clone

def write (id : Nat) (content : Value) : Run Unit := do
  let a ← Run.read .cell id
  Run.write id { a with content }

/-- Replace what the cell holds; the old content is given up after the new one is in place. -/
def put (target : Option Nat) (content : Value) : Run Unit := do
  let id ← Run.unwinding [content] (address target)
  let a ← Run.read .cell id
  Run.write id { a with content }
  Run.drop [a.content]

/-- Change what the cell holds, which is locked meanwhile. If the change is abandoned, the content
stays. -/
def update {α : Type} (target : Option Nat) (change : Value → Run (Value × α)) : Run α := do
  let id ← address target
  let a ← Run.read .cell id
  Run.locking id do
    let (content, result) ← change a.content
    write id content
    pure result

end SharedValues.Cell
