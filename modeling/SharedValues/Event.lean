import SharedValues.Text.Stable
import SharedValues.Ty.Name
import SharedValues.Value.Basic

/-!
What a run reports: errors of access, panics, and the events that happen on the way. The wording
of each is given in one place.
-/
namespace SharedValues

/-- Why something could not be accessed. -/
inductive AccessError where
  | invalidMemory
  | incompatibleType (expected found : String)
  | allocationFailed
  deriving DecidableEq, Repr

namespace AccessError

def label : AccessError → String
  | .invalidMemory => "InvalidMemory"
  | .incompatibleType .. => "IncompatibleType"
  | .allocationFailed => "MemoryAllocationFailed"

def message : AccessError → String
  | .invalidMemory => "invalid memory address or nil pointer deference"
  | .incompatibleType expected found =>
    "incompatible type: expected " ++ expected ++ ", found " ++ found
  | .allocationFailed => "memory allocation failed"

def inspect : AccessError → String
  | e@(.incompatibleType expected found) =>
    e.label ++ " \x7b expected: " ++ Text.quoteText expected ++ ", found: " ++
      Text.quoteText found ++ " \x7d"
  | e => e.label

end AccessError

def Hook.name : Hook → String
  | .clone => "clone"
  | .eq => "eq"
  | .render => "render"
  | .deep => "deep"
  | .sound => "sound"
  | .poke => "poke"

/-- Why an operation was abandoned. -/
inductive Panic where
  | fatal (error : AccessError)
  | refused (hook : Hook) (probe : Probe)
  | raised (text : String)
  /-- Part of a text was asked for that ends before it starts. -/
  | backwards (span : Text.Span)
  deriving DecidableEq, Repr

def Panic.message : Panic → String
  | .fatal error => error.message
  | .refused hook probe => "probe " ++ toString probe.id ++ " refused " ++ hook.name
  | .raised text => text
  | .backwards span =>
    "byte range starts at " ++ toString span.start ++ " but ends at " ++ toString span.stop

inductive Event where
  | published (type : Ty)
  | lastShare (slot : Nat) (type : Ty)
  | destroying (type : Ty)
  | fatal (error : AccessError)
  | hook (hook : Hook) (probe : Probe)
  | dropped (probe : Probe)
  deriving DecidableEq, Repr

def Event.text : Event → String
  | .published type => "TRACE publishing type table for " ++ type.name
  | .lastShare _ type => "TRACE last share of " ++ type.name ++ " released"
  | .destroying type => "TRACE destroying payload of type " ++ type.name
  | .fatal error => "ERROR fatal runtime error: " ++ error.message
  | .hook h p => h.name ++ " " ++ toString p.id
  | .dropped p => "drop " ++ toString p.id

def Event.isPublished : Event → Bool
  | .published _ => true
  | _ => false

end SharedValues
