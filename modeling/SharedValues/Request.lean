import SharedValues.Program.Run

/-!
Requests: a value shown in every way, type tokens, a table at work on two payloads, an error with
its consequences, copies of plain addresses, the list of types, and programs.
-/
namespace SharedValues.Request

open Machine (Result ok tokenDatum)

def typeField? (d : Datum) (key : String) : Option Ty :=
  (d.textField? key).bind Ty.ofKey?

/-- The fields of a value of a type with text, which has been rendered once already. -/
def showTexts (t : Ty) (v : Value) (text : String) (any : Option Nat) :
    Run (List (String × Datum)) := do
  let erased : Value := .handle .slot any
  let shown ← Machine.shownType ⟨t, v⟩
  let stable (text : String) : Run Datum := .text <$> shown.stableText text
  let appended ← v.render "> "
  let byReference ← v.toText
  let box ← v.clone
  let boxed ← Run.dropping [box] (Value.node .box [box]).toText
  let some' ← v.clone
  let option ← Run.dropping [some'] (Value.node .some [some']).toText
  let anyText ← erased.toText
  let anyInspected ← erased.inspect .inline
  let value ← v.picture
  let copy ← v.clone
  let selfEqual ← Run.dropping [copy] (v.equals copy)
  let anyEquals ← Erased.equalsValue any t v
  let pair ← Run.collect .sequence [] [v.clone, v.clone]
  let slices ← Run.dropping pair do
    let slice ← (Value.node .sequence pair).toText
    let boxedSlice ← (Value.node .sequence pair).toText
    pure [("slice", ← stable slice), ("boxed_slice", ← stable boxedSlice)]
  pure ([("text", ← stable text), ("appended", ← stable appended),
    ("by_ref", ← stable byReference), ("boxed", ← stable boxed), ("option", ← stable option),
    ("any", ← stable anyText), ("any_debug", ← stable anyInspected), ("value", value),
    ("self_eq", .bool selfEqual), ("any_equals", .bool anyEquals)] ++ (if t.hasHashedMap then [] else slices))

/-- The deep copy of a value, and whether it equals the value. -/
def showDeep (v : Value) : Run (List (String × Datum)) := do
  let copy ← v.deepCopy
  Run.dropping [copy] do
    let picture ← copy.picture
    let same ← copy.equals v
    pure [("deep", picture), ("deep_eq", .bool same)]

def showRendered (t : Ty) (v : Value) : Run Result := do
  let text ← Run.unwinding [v] v.toText
  let copy ← Run.unwinding [v] v.clone
  let any ← Erased.new t copy
  Run.dropping [.handle .slot any, v] do
    let texts ← showTexts t v text any
    let deep ← if t.copiesDeep then showDeep v else pure []
    ok (.record ([("type", .text t.name)] ++ texts ++ deep))

def showPlain (t : Ty) (v : Value) : Run Result :=
  Run.dropping [v] do
    let value ← v.picture
    let deep ← showDeep v
    ok (.record ([("type", .text t.name), ("value", value)] ++ deep))

def showValue (d : Datum) : Run Result := do
  let t ← Run.orRefuse (typeField? d "type")
  let v ← Reader.read t (← Run.orRefuse (d.field? "value"))
  if t.renders then showRendered t v else showPlain t v

def token (d : Datum) : Run Result := do
  let a ← Run.orRefuse ((d.textField? "a").bind Ty.tokenOfKey?)
  let b ← Run.orRefuse ((d.textField? "b").bind Ty.tokenOfKey?)
  let same := Datum.bool (a == b)
  ok (.record [("a", tokenDatum (some a)), ("b", tokenDatum (some b)), ("eq", same),
    ("id_eq", same), ("hash_eq", same)])

def readPayload (d : Datum) : Run Payload := do
  let type ← Run.orRefuse (typeField? d "type")
  let value ← Reader.read type (← Run.orRefuse (d.field? "value"))
  pure ⟨type, value⟩

/-- Destroy a payload through a table, which need not be the one of its type. -/
def destroyWith (table : Table) (p : Payload) : Run Unit := do
  Run.record (.destroying table.type)
  Run.drop [p.value]

def table (d : Datum) : Run Result := do
  let t ← Run.orRefuse (typeField? d "table")
  Run.require t.renders
  let a ← readPayload (← Run.orRefuse (d.field? "a"))
  let b ← Run.unwinding [a.value] (do readPayload (← Run.orRefuse (d.field? "b")))
  let table ← Run.tableFor t
  let again ← Run.tableFor t
  let (text, equals) ← Run.unwinding [b.value, a.value] do
    let opening ← Run.orRefuse (d.textField? "prefix")
    let text ← table.render a opening
    let text ← table.render b (text ++ "|")
    let forward ← table.equals a b
    let backward ← table.equals b a
    pure (text, [Datum.bool forward, .bool backward])
  destroyWith table b
  destroyWith table a
  let text ← t.stableText text
  ok (.record [("identity", tokenDatum (some table.type)), ("same_table", .bool (table == again)),
    ("text", .text text), ("equals", .list equals)])

def readError (d : Datum) : Option AccessError := do
  match ← d.textField? "kind" with
  | "InvalidMemory" => some .invalidMemory
  | "MemoryAllocationFailed" => some .allocationFailed
  | "IncompatibleType" =>
    some (.incompatibleType (← d.textField? "expected") (← d.textField? "found"))
  | _ => none

def error (d : Datum) : Run Result := do
  let a ← Run.orRefuse ((d.field? "a").bind readError)
  let b ← Run.orRefuse ((d.field? "b").bind readError)
  let fatal ← fun w =>
    match (Run.fatal a : Run Result) w with
    | .ok (.ok d) w => .ok [("ok", d)] w
    | .ok (.error e) w => .ok (Answer.errorFields e) w
    | .error stop w => .ok (Answer.stopFields stop) w
  ok (.record [("display", .text a.message), ("debug", .text a.inspect), ("eq", .bool (a == b)),
    ("fatal", .record fatal)])

def readInts (d : Datum) : Run (List Int) := do
  let items ← Run.orRefuse d.list?
  items.mapM (Reader.readInt .i64)

/-- A function of as many integers as are given, which wraps around at 64 bits. -/
def plainCall (d : Datum) : Run Result := do
  let result ←
    match ← readInts (← Run.orRefuse (d.field? "args")) with
    | [] => pure 7
    | [a] => pure (2 * a)
    | [a, b] => pure (a - b)
    | [a, b, c] => pure ((a - b) * c)
    | [a, b, c, d] => pure ((a - b) * c + d)
    | _ => Run.refuse
  ok (.decimal (IntType.i64.wrap result))

/-- Copies of a plain address see what is written through any of them. -/
def plainAddress (d : Datum) : Run Result := do
  let target ← readInts (← Run.orRefuse (d.field? "target"))
  let written ← readInts (← Run.orRefuse (d.field? "write"))
  ok (.record [("before", .list (target.map .decimal)), ("after", .list (written.map .decimal)),
    ("len", .int written.length), ("same", .list (List.replicate 3 (.bool true)))])

def types : Datum :=
  .list (Ty.catalog.map fun t => .list [.text t.key, .text t.name])

def perform (fresh : Bool) (d : Datum) : Run Result := do
  match ← Run.orRefuse (d.textField? "op") with
  | "show" => showValue d
  | "token" => token d
  | "table" => table d
  | "error" => error d
  | "fnptr" => plainCall d
  | "rawptr" => plainAddress d
  | "types" => ok types
  | "program" =>
    let steps ← Run.orRefuse ((d.field? "steps").bind Datum.list?)
    ok (Program.run fresh steps {})
  | _ => Run.refuse

/-- Was the request to be carried out with nothing published before? -/
def isFresh (d : Datum) : Bool :=
  match d.field? "fresh" with
  | some (.bool b) => b
  | _ => false

/-- The answer to a request. -/
def answer (d : Datum) : Datum :=
  let fresh := isFresh d
  (Answer.ofRun fresh (perform fresh d) {}).1

end SharedValues.Request
