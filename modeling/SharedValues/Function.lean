import SharedValues.Cell

/-!
Function values: handles to code with the state it has captured. All copies of a function value
share that state.
-/
namespace SharedValues.Function

def new (code : Code) (captured : Value) : Run (Option Nat) := do
  let id ← Run.allocate (.callable code) captured
  pure (some id)

/-- Integers wrap around at 64 bits. -/
def wrap (n : Int) : Value :=
  .int (IntType.i64.wrap n)

def addTo (x : Int) : Value → Run (Value × Value)
  | .scalar (.int total) => pure (wrap (total + x), wrap (total + x))
  | _ => throw .dangling

/-- Run code on an argument. -/
def apply : Code → Value → Value → Run Value
  | .add k, _, .scalar (.int x) => pure (wrap (x + k))
  | .mul k, _, .scalar (.int x) => pure (wrap (x * k))
  | .tally, .handle .cell total, .scalar (.int x) => Cell.update total (addTo x)
  | .raise message, _, _ => Run.panic (.raised message)
  | .increment, _, .scalar (.int x) => pure (wrap (x + 1))
  | .square, _, .scalar (.int x) => pure (wrap (x * x))
  | .byteCount, _, .scalar (.text s) => pure (.int s.utf8ByteSize)
  | .charCount, _, .scalar (.text s) => pure (.int s.length)
  | _, _, _ => throw .dangling

/-- The code and the captured state behind a handle; there is none behind a handle to nothing. -/
def tryGet (target : Option Nat) : Run (Except AccessError (Code × Value)) :=
  match target with
  | none => pure (.error .invalidMemory)
  | some id => do
    let a ← Run.read .callable id
    match a.role with
    | .callable code => pure (.ok (code, a.content))
    | _ => throw .dangling

def get (target : Option Nat) : Run (Code × Value) := do
  match ← tryGet target with
  | .error e => Run.fatal e
  | .ok f => pure f

/-- Call what is behind a handle. -/
def call (target : Option Nat) (argument : Value) : Run Value := do
  let f ← get target
  apply f.1 f.2 argument

end SharedValues.Function
