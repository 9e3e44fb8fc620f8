import SharedValues.Event
import SharedValues.Registry.Threads

/-!
The state of a run, and operations that may be abandoned. An abandoned operation keeps the state
that it reached.
-/
namespace SharedValues

structure Variable where
  type : Ty
  value : Value
  deriving DecidableEq, Repr

/-- Something that comes into being. -/
inductive Birth where
  | probe (p : Probe)
  | allocation (id : Nat) (role : Role)
  deriving DecidableEq, Repr

structure World where
  store : Store := {}
  registry : Registry := {}
  trace : List Event := []
  /-- What has come into being, in order. Nothing reads this list. -/
  created : List Birth := []
  /-- The cells whose content is being changed. -/
  locks : List Nat := []
  /-- The variables, in ascending order of their names. -/
  bindings : List (String × Variable) := []
  deriving DecidableEq, Repr

/-- Why an operation ended without a result. -/
inductive Stop where
  /-- The operation panicked. -/
  | panic (p : Panic)
  /-- The request makes no sense. -/
  | refused
  /-- More handles were followed in a row than there are allocations. -/
  | endless
  /-- The operation waits for a cell that it has locked itself. -/
  | deadlock
  /-- A handle of the wrong kind, or to no live allocation. -/
  | dangling
  deriving DecidableEq, Repr

abbrev Run := EStateM Stop World

namespace World

def record (w : World) (e : Event) : World :=
  { w with trace := w.trace ++ [e] }

def recordAll (w : World) (es : List Event) : World :=
  { w with trace := w.trace ++ es }

/-- A new allocation with one share. -/
def allocate (w : World) (role : Role) (content : Value) : World :=
  { w with
    store := w.store.push ⟨role, content, 1⟩
    created := w.created ++ [.allocation w.store.next role] }

/-- How many handles can be followed in a row without coming back. -/
def hops (w : World) : Nat :=
  w.store.next

end World

namespace Run

def record (e : Event) : Run Unit :=
  modify (·.record e)

def refuse {α : Type} : Run α :=
  throw .refused

def panic {α : Type} (p : Panic) : Run α :=
  throw (.panic p)

/-- Report an error that ends the operation. -/
def fatal {α : Type} (e : AccessError) : Run α := do
  record (.fatal e)
  panic (.fatal e)

/-- A probe takes part in an operation, unless it refuses. -/
def callHook (h : Hook) (p : Probe) : Run Unit := do
  record (.hook h p)
  if p.boom = some h then panic (.refused h p)

/-- A probe comes into being. -/
def create (p : Probe) : Run Value :=
  modifyGet fun w => (.probe p, { w with created := w.created ++ [.probe p] })

def orRefuse {α : Type} : Option α → Run α
  | some a => pure a
  | none => refuse

def require (b : Bool) : Run Unit :=
  if b then pure () else refuse

/-- The live allocation that a handle points at. -/
def read (kind : HandleKind) (id : Nat) : Run Allocation := do
  match (← get).store.get? id with
  | some a => if a.role.kind = kind then pure a else throw .dangling
  | none => throw .dangling

def write (id : Nat) (a : Allocation) : Run Unit :=
  modify fun w => { w with store := w.store.put id a }

def allocate (role : Role) (content : Value) : Run Nat :=
  modifyGet fun w => (w.store.next, w.allocate role content)

/-- Run an action while a cell is locked. -/
def locking {α : Type} (id : Nat) (act : Run α) : Run α := fun w =>
  match act { w with locks := id :: w.locks } with
  | .ok a w => .ok a { w with locks := w.locks.erase id }
  | .error e w => .error e { w with locks := w.locks.erase id }

/-- One more share of an allocation. -/
def retain (kind : HandleKind) (id : Nat) : Run Unit := do
  let a ← read kind id
  write id { a with shares := a.shares + 1 }

/-- The table of a type, published at its first use. -/
def tableFor (t : Ty) : Run Table := do
  match (← get).registry.find? t with
  | some table => pure table
  | none =>
    let (table, registry) := (← get).registry.enter t
    modify fun w => { w with registry }
    record (.published t)
    pure table

end Run

end SharedValues
