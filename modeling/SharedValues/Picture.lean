import SharedValues.Datum
import SharedValues.Object
import SharedValues.Text.Stable

/-!
Pictures: what an answer shows of a value. A cell shows its content and its share count, an erased
value its type and text, an object its concrete type and its view.
-/
namespace SharedValues

/-- A text without the accidents that the type brings in: addresses, and the order of entries. -/
def Ty.stableText (t : Ty) (text : String) : Run String := do
  let cs := text.toList
  let cs := if t.hasObject then Text.maskAddresses cs else cs
  if t.hasHashedMap then
    match Text.sortEntries cs with
    | .ok sorted => pure (String.ofList sorted)
    | .error span => Run.panic (.backwards span)
  else pure (String.ofList cs)

def Scalar.picture : Scalar → Datum
  | .unit => .null
  | .bool b => .bool b
  | .int n => .decimal n
  | s@(.float32 bits) => if s.isNaN then .text "nan" else .bits 8 bits.toNat
  | s@(.float64 bits) => if s.isNaN then .text "nan" else .bits 16 bits.toNat
  | .char c => .text (String.singleton c)
  | .text s => .text s

def Variant.key : Variant → String
  | .int => "int"
  | .text => "text"
  | .probe => "probe"
  | .seq => "seq"
  | .arr => "arr"
  | .map => "map"
  | .opt => "opt"
  | .cell => "cell"
  | .any => "any"

/-- The picture of a node from those of its parts. -/
def Shape.picture : Shape → List Datum → Datum
  | .some, [p] => .record [("some", p)]
  | .variant v, [p] => .record [(v.key, p)]
  | .dog, [name, tricks] => .record [("name", name), ("tricks", tricks)]
  | .inventory, [owner, items, stock] =>
    .record [("owner", owner), ("items", items), ("stock", stock)]
  | .box, [p] | .meters, [p] | .feet, [p] | .cat, [p] | .counter, [p] => p
  | .none, _ => .null
  | _, parts => .list parts

namespace Value

mutual

/-- The picture of a value, given that of a handle. -/
def pictureWith (through : HandleKind → Nat → Run Datum) : Value → Run Datum
  | .scalar s => pure s.picture
  | .probe p => pure (.decimal p.id)
  | .handle _ none => pure .null
  | .handle kind (some id) => through kind id
  | .node shape parts => do
    let pictures ← picturesWith through parts
    pure (shape.picture pictures)

def picturesWith (through : HandleKind → Nat → Run Datum) : List Value → Run (List Datum)
  | [] => pure []
  | v :: vs => do
    let p ← pictureWith through v
    let ps ← picturesWith through vs
    pure (p :: ps)

end

/-- The picture of a handle, following at most `hops` handles in a row. -/
def pictureThrough : Nat → HandleKind → Nat → Run Datum
  | 0, _, _ => throw .endless
  | hops + 1, kind, id => do
    let a ← Run.read kind id
    match a.role with
    | .slot table _ =>
      let text ← renderThrough (hops + 1) kind id ""
      let text ← table.type.stableText text
      pure (.record [("type", .text table.type.name), ("text", .text text)])
    | .cell _ =>
      let content ← a.content.pictureWith (pictureThrough hops)
      pure (.record [("ref", content), ("n", .int a.shares)])
    | .object interface type =>
      let view ← interface.view a.content
      let picture ← view.pictureWith (pictureThrough hops)
      pure (.record [("impl", .text type.name), ("view", picture)])
    | .callable _ => pure (.text "fn")

def picture (v : Value) : Run Datum := do
  v.pictureWith (pictureThrough (← get).hops)

end Value

end SharedValues
