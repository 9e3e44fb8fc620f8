import SharedValues.Compare
import SharedValues.Copy

/-!
Erased values: handles to slots, which hold a payload together with the table of its type. An
erased value never holds another one directly; storing one shares its slot instead.
-/
namespace SharedValues

namespace Run

/-- The number of shares of what a handle points at. -/
def shareCount (kind : HandleKind) (target : Option Nat) : Run Nat :=
  match target with
  | none => pure 0
  | some id => do
    let a ← read kind id
    pure a.shares

end Run

/-- Do two handles point at the same allocation? Handles to nothing do not. -/
def samePlace (a b : Option Nat) : Bool :=
  a.isSome && a == b

namespace Erased

/-- The table and the payload of a slot. -/
def slot? (target : Option Nat) : Run (Option (Table × Payload)) :=
  match target with
  | none => pure none
  | some id => do
    let a ← Run.read .slot id
    match a.role with
    | .slot table type => pure (some (table, ⟨type, a.content⟩))
    | _ => pure none

/-- Make a handle share another one's slot. -/
def assign (current source : Option Nat) : Run (Option Nat) :=
  match source with
  | none => do
    Run.drop [.handle .slot current]
    pure none
  | some id =>
    if current = some id then pure current
    else do
      Run.drop [.handle .slot current]
      Run.retain .slot id
      pure (some id)

/-- Store a value in place of what the handle holds. An erased value is shared and then given
up; any other value gets a slot of its own once the old one has been let go. -/
def set (current : Option Nat) (type : Ty) (value : Value) : Run (Option Nat) :=
  match type, value with
  | .erased, .handle .slot source => do
    let target ← assign current source
    Run.drop [value]
    pure target
  | _, _ => do
    Run.drop [.handle .slot current]
    let table ← Run.tableFor type
    let id ← Run.allocate (.slot table type) value
    pure (some id)

def new (type : Ty) (value : Value) : Run (Option Nat) :=
  set none type value

def clear (current : Option Nat) : Run Unit :=
  Run.drop [.handle .slot current]

def type? (target : Option Nat) : Run (Option Ty) := do
  let slot ← slot? target
  pure (slot.map (·.1.type))

/-- Is the table of the slot that of the given type? Nothing is of the type that has no values. -/
def isType (target : Option Nat) (type : Ty) : Run Bool := do
  if type = .nil then pure false
  else
    let stored ← type? target
    pure (stored == some type)

/-- The stored value, if the table and the payload have the given type. -/
def downcast? (target : Option Nat) (type : Ty) : Run (Option Value) := do
  if ← isType target type then
    let slot ← slot? target
    pure (slot.bind (·.2.as? type))
  else pure none

/-- The stored value, or the reason why there is none of the given type. -/
def access (target : Option Nat) (type : Ty) : Run (Except AccessError Value) := do
  match ← slot? target with
  | none => pure (.error .invalidMemory)
  | some (table, _) =>
    match ← downcast? target type with
    | some v => pure (.ok v)
    | none => pure (.error (.incompatibleType type.name table.type.name))

/-- Run an action on the stored value, if it has the given type. -/
def withStored {α : Type} (target : Option Nat) (type : Ty) (f : Value → Run α) :
    Run (Except AccessError α) := do
  match ← access target type with
  | .error e => pure (.error e)
  | .ok v =>
    let a ← f v
    pure (.ok a)

/-- A clone of the stored value, if it has the given type. -/
def tryExtract (target : Option Nat) (type : Ty) : Run (Except AccessError Value) :=
  withStored target type Value.clone

/-- A clone of the stored value, which must have the given type. -/
def extract (target : Option Nat) (type : Ty) : Run Value := do
  match ← tryExtract target type with
  | .error e => Run.fatal e
  | .ok v => pure v

/-- Is the stored value of the given type and equal to the given one? -/
def equalsValue (target : Option Nat) (type : Ty) (value : Value) : Run Bool := do
  if type = .erased then (Value.handle .slot target).equals value
  else
    match ← downcast? target type with
    | some stored => stored.equals value
    | none => pure false

end Erased

end SharedValues
