import SharedValues.Render

/-!
The form of a value for inspection: types are named, texts are quoted, and an indented layout puts
every part on lines of its own.
-/
namespace SharedValues

inductive Layout where
  | inline
  | indented
  deriving DecidableEq, Repr

/-- How the parts of a node are put together. -/
inductive Form where
  | bare
  | word (text : String)
  | group (opening closing : String)
  | pair
  | tuple (name : String)
  | record (name : String) (fields : List String)

def Variant.label : Variant → String
  | .int => "Int"
  | .text => "Text"
  | .probe => "Probe"
  | .seq => "Seq"
  | .arr => "Arr"
  | .map => "Map"
  | .opt => "Opt"
  | .cell => "Cell"
  | .any => "Any"

def Shape.form : Shape → Form
  | .sequence => .group "[" "]"
  | .map _ => .group "\x7b" "\x7d"
  | .entry => .pair
  | .tuple => .tuple ""
  | .none => .word "None"
  | .some => .tuple "Some"
  | .box => .bare
  | .meters => .tuple "Meters"
  | .feet => .tuple "Feet"
  | .counter => .tuple "Counter"
  | .cat => .record "Cat" ["lives"]
  | .dog => .record "Dog" ["name", "tricks"]
  | .inventory => .record "Inventory" ["owner", "items", "stock"]
  | .variant v => .tuple v.label

namespace Layout

/-- One item of an indented group: every line of it is moved in, and a comma follows. -/
def indentItem (item : String) : String :=
  String.join (((item ++ ",").splitOn "\n").map fun line => "    " ++ line ++ "\n")

/-- Items between two brackets. An inline group may want blanks inside its brackets, and
`onlyComma` is what a single item has after it. -/
def group (layout : Layout) (opening closing blank onlyComma : String) (items : List String) :
    String :=
  match layout, items with
  | _, [] => opening ++ closing
  | .indented, items => opening ++ "\n" ++ String.join (items.map indentItem) ++ closing
  | .inline, [item] => opening ++ blank ++ item ++ onlyComma ++ blank ++ closing
  | .inline, items => opening ++ blank ++ String.intercalate ", " items ++ blank ++ closing

def assemble (layout : Layout) (form : Form) (parts : List String) : String :=
  match form with
  | .bare => String.join parts
  | .word text => text
  | .group opening closing => layout.group opening closing "" "" parts
  | .pair => String.intercalate ": " parts
  | .tuple name => layout.group (name ++ "(") ")" "" (if name.isEmpty then "," else "") parts
  | .record name fields =>
    layout.group (name ++ " \x7b") "\x7d" " " ""
      (List.zipWith (fun field part => field ++ ": " ++ part) fields parts)

end Layout

/-- The word for a kind of handle. -/
def HandleKind.label : HandleKind → String
  | .slot => "AnyValue"
  | .cell => "Ref"
  | .object => "Trait"
  | .callable => "Func"

namespace Value

mutual

/-- The form of a value, given the form of a handle. -/
def inspectWith (layout : Layout) (through : HandleKind → Nat → Run String) : Value → Run String
  | .scalar s => pure s.inspect
  | .probe p => pure ("Probe(" ++ toString p.id ++ ")")
  | .handle kind none => pure (kind.label ++ "(nil)")
  | .handle kind (some id) => through kind id
  | .node shape parts => do
    let texts ← inspectParts layout through parts
    pure (layout.assemble shape.form texts)

def inspectParts (layout : Layout) (through : HandleKind → Nat → Run String) :
    List Value → Run (List String)
  | [] => pure []
  | v :: vs => do
    let text ← inspectWith layout through v
    let texts ← inspectParts layout through vs
    pure (text :: texts)

end

/-- The form of a handle, following at most `hops` handles in a row. -/
def inspectThrough (layout : Layout) : Nat → HandleKind → Nat → Run String
  | 0, _, _ => throw .endless
  | hops + 1, kind, id => do
    let a ← Run.read kind id
    match a.role with
    | .slot table _ =>
      let text ← renderThrough (hops + 1) kind id ""
      pure (kind.label ++ "(" ++ table.type.name ++ ": " ++ text ++ ")")
    | .cell _ =>
      let text ← a.content.inspectWith layout (inspectThrough layout hops)
      pure (layout.assemble (.tuple kind.label) [text])
    | .object _ type => pure (kind.label ++ "(" ++ type.name ++ ")")
    | .callable _ => pure (kind.label ++ "(" ++ kind.emptyText ++ ")")

def inspect (layout : Layout) (v : Value) : Run String := do
  v.inspectWith layout (inspectThrough layout (← get).hops)

end Value

end SharedValues
