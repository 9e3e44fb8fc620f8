import SharedValues.World

/-!
The text of a value. Rendering only appends: each shape writes an opening, its parts divided by one
separator, and a closing; handles write what they hold, except that an object writes its address
and a function a fixed word.
-/
namespace SharedValues

structure Brackets where
  opening : String
  separator : String
  closing : String

def Shape.brackets : Shape → Brackets
  | .sequence => ⟨"[", " ", "]"⟩
  | .map _ => ⟨"\x7b", ", ", "\x7d"⟩
  | .entry => ⟨"", ":", ""⟩
  | .none => ⟨"nil", "", ""⟩
  | .meters => ⟨"", "", "m"⟩
  | .feet => ⟨"", "", "ft"⟩
  | .cat => ⟨"Cat#", "", ""⟩
  | .dog => ⟨"Dog(", " ", ")"⟩
  | .inventory => ⟨"", "/", ""⟩
  | .tuple | .some | .box | .counter | .variant _ => ⟨"", "", ""⟩

/-- The text of a handle to nothing. -/
def HandleKind.emptyText : HandleKind → String
  | .slot => "0"
  | .cell | .object => "nil"
  | .callable => "<fn>"

/-- Where the first allocation lies. It is far from the small numbers that a text may well hold, so
that an address does not look like one of them. -/
def firstAddress : Nat := 0x7f31c8a04d20

/-- The text of an address; different addresses have different texts. -/
def addressText (id : Nat) : String :=
  "0x" ++ String.ofList (Nat.toDigits 16 (firstAddress + 16 * id))

namespace Value

mutual

/-- Append the text of a value, given how a handle is rendered. -/
def renderWith (through : HandleKind → Nat → String → Run String) : Value → String → Run String
  | .scalar s, out => pure (out ++ s.display)
  | .probe p, out => do
    Run.callHook .render p
    pure (out ++ "probe" ++ toString p.id)
  | .handle kind none, out => pure (out ++ kind.emptyText)
  | .handle kind (some id), out => through kind id out
  | .node shape parts, out => do
    let out ← renderParts through shape.brackets.separator parts (out ++ shape.brackets.opening)
    pure (out ++ shape.brackets.closing)

def renderParts (through : HandleKind → Nat → String → Run String) (separator : String) :
    List Value → String → Run String
  | [], out => pure out
  | [v], out => renderWith through v out
  | v :: vs, out => do
    let out ← renderWith through v out
    renderParts through separator vs (out ++ separator)

end

end Value

/-- Render a payload with a table. A payload of another type has no text. -/
def Table.renderWith (through : HandleKind → Nat → String → Run String) (table : Table)
    (a : Payload) (out : String) : Run String :=
  if a.type = table.type then a.value.renderWith through out else pure out

namespace Value

/-- Append the text of what a handle points at, following at most `hops` handles in a row. -/
def renderThrough : Nat → HandleKind → Nat → String → Run String
  | _, .object, id, out => pure (out ++ addressText id)
  | _, .callable, _, out => pure (out ++ HandleKind.callable.emptyText)
  | 0, _, _, _ => throw .endless
  | hops + 1, kind, id, out => do
    let a ← Run.read kind id
    match a.role with
    | .slot table type => table.renderWith (renderThrough hops) ⟨type, a.content⟩ out
    | _ => a.content.renderWith (renderThrough hops) out

def render (v : Value) (out : String) : Run String := do
  v.renderWith (renderThrough (← get).hops) out

def toText (v : Value) : Run String :=
  v.render ""

end Value

def Table.render (table : Table) (a : Payload) (out : String) : Run String := do
  table.renderWith (Value.renderThrough (← get).hops) a out

end SharedValues
