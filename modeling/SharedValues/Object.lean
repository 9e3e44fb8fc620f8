import SharedValues.Cell
import SharedValues.Render

/-!
Objects: handles to a value of some concrete type that are seen through an interface. The view is
computed from the value each time, so the two can never differ.
-/
namespace SharedValues

namespace Interface

/-- The concrete types that an interface can show. -/
def accepts : Interface → Ty → Bool
  | .pet, .dog | .pet, .cat | .pet, .counter | .pet, .probe => true
  | .named, .dog | .named, .meters | .named, .inventory => true
  | .text, .string | .text, .borrowed | .text, .dog => true
  | .ints, .list (.int .i32) | .ints, .array (.int .i32) 3 => true
  | _, _ => false

/-- What an interface shows of a value. -/
def view : Interface → Value → Run Value
  | .pet, .node .dog [.scalar (.text name), _] => pure (.text (name ++ " says: Woof!"))
  | .pet, .node .cat _ => pure (.text "Meow!")
  | .pet, .node .counter [.scalar (.int n)] => pure (.text ("click " ++ toString n))
  | .pet, .probe p => do
    Run.callHook .sound p
    pure (.text ("ping " ++ toString p.id))
  | .named, .node .dog [name, _] => pure name
  | .named, .node .inventory [.scalar (.text owner), _, .handle .cell stock] => do
    let content ← Cell.peek stock
    match content with
    | .node (.map _) entries =>
      pure (.text (owner ++ " has " ++ toString entries.length ++ " kinds"))
    | _ => throw .dangling
  | .named, v => do
    let text ← v.toText
    pure (.text text)
  | .text, .node .dog [name, _] => pure name
  | _, v => pure v

end Interface

namespace Object

def new (interface : Interface) (type : Ty) (value : Value) : Run (Option Nat) := do
  let id ← Run.allocate (.object interface type) value
  pure (some id)

/-- The interface, the concrete type and the value behind a handle. -/
def object? (target : Option Nat) : Run (Option (Interface × Payload)) :=
  match target with
  | none => pure none
  | some id => do
    let a ← Run.read .object id
    match a.role with
    | .object interface type => pure (some (interface, ⟨type, a.content⟩))
    | _ => pure none

/-- The object behind a handle, which must point at one. -/
def get (target : Option Nat) : Run (Interface × Payload) := do
  match ← object? target with
  | none => Run.fatal .invalidMemory
  | some object => pure object

/-- What the object shows through its interface. -/
def view (target : Option Nat) : Run Value := do
  let (interface, payload) ← get target
  interface.view payload.value

def type? (target : Option Nat) : Run (Option Ty) := do
  let object ← object? target
  pure (object.map (·.2.type))

def isType (target : Option Nat) (type : Ty) : Run Bool := do
  let stored ← type? target
  pure (stored == some type)

/-- The value behind a handle, or the reason why there is none of the given type. -/
def access (target : Option Nat) (type : Ty) : Run (Except AccessError Value) := do
  match ← object? target with
  | none => pure (.error .invalidMemory)
  | some (_, payload) =>
    if payload.type = type then pure (.ok payload.value)
    else pure (.error (.incompatibleType type.name payload.type.name))

/-- The value behind a handle, if it has the given type. -/
def downcast? (target : Option Nat) (type : Ty) : Run (Option Value) := do
  match ← access target type with
  | .error _ => pure none
  | .ok v => pure (some v)

def tryExtract (target : Option Nat) (type : Ty) : Run (Except AccessError Value) := do
  match ← access target type with
  | .error e => pure (.error e)
  | .ok v =>
    let copy ← v.clone
    pure (.ok copy)

def extract (target : Option Nat) (type : Ty) : Run Value := do
  match ← tryExtract target type with
  | .error e => Run.fatal e
  | .ok v => pure v

/-- Append a trick to a list of tricks, and count them. -/
def addTrick (n : Nat) : Value → Run (Value × Int)
  | .node .sequence tricks =>
    pure (.node .sequence (tricks ++ [.text ("trick" ++ toString n)]), tricks.length + 1)
  | _ => throw .dangling

/-- The mutating call of pets: a dog learns a trick, a counter counts, the others stay as they
are. -/
def pokeValue (id n : Nat) : Value → Run Int
  | .node .dog [_, .handle .cell tricks] => Cell.update tricks (addTrick n)
  | .node .cat [.scalar (.int lives)] => pure lives
  | .node .counter [.scalar (.int count)] => do
    let count := IntType.u32.wrap (count + n)
    let a ← Run.read .object id
    Run.write id { a with content := .node .counter [.int count] }
    pure count
  | .probe p => do
    Run.callHook .poke p
    pure n
  | _ => Run.refuse

def poke (target : Option Nat) (n : Nat) : Run Int :=
  match target with
  | none => Run.fatal .invalidMemory
  | some id => do
    let a ← Run.read .object id
    match a.role with
    | .object .pet _ => pokeValue id n a.content
    | _ => Run.refuse

end Object

end SharedValues
