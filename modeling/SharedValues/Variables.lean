import SharedValues.World

/-!
Variables, kept in ascending order of their names.
-/
namespace SharedValues

namespace World

/-- Put a variable where its name belongs, in place of one of the same name. -/
def insertVariable (name : String) (v : Variable) :
    List (String × Variable) → List (String × Variable)
  | [] => [(name, v)]
  | (other, o) :: rest =>
    match compare name other with
    | .lt => (name, v) :: (other, o) :: rest
    | .eq => (name, v) :: rest
    | .gt => (other, o) :: insertVariable name v rest

def find? (w : World) (name : String) : Option Variable :=
  w.bindings.lookup name

def bind (w : World) (name : String) (v : Variable) : World :=
  { w with bindings := insertVariable name v w.bindings }

def unbind (w : World) (name : String) : World :=
  { w with bindings := w.bindings.filter (·.1 != name) }

end World

namespace Run

def lookup (name : String) : Run Variable := do
  orRefuse ((← get).find? name)

/-- The target of a variable that holds a handle of the given kind. -/
def lookupHandle (kind : HandleKind) (name : String) : Run (Option Nat) := do
  match (← lookup name).value with
  | .handle k target => if k = kind then pure target else refuse
  | _ => refuse

def bind (name : String) (type : Ty) (value : Value) : Run Unit :=
  modify (·.bind name ⟨type, value⟩)

def unbind (name : String) : Run Unit :=
  modify (·.unbind name)

end Run

end SharedValues
