import SharedValues.Edit
import SharedValues.Inspect
import SharedValues.Program.Step

/-!
The machine that runs programs. Each step yields an answer or is abandoned; either way the state it
reached stays, and the program goes on. The events of a step are the new end of the trace.
-/
namespace SharedValues

namespace Machine

/-- What a step yields: an answer, or an error of access that is handed back. -/
abbrev Result := Except AccessError Datum

def ok (d : Datum) : Run Result :=
  pure (.ok d)

def done : Run Result :=
  ok .null

/-- Bind a variable and give up what it held before. -/
def replace (name : String) (type : Ty) (value : Value) : Run Unit := do
  let old := (← get).find? name
  Run.bind name type value
  Run.drop (old.toList.map (·.value))

/-- Give a new value to the variable that is to hold it. Without one the value is given up. -/
def deliver (target : Option String) (type : Ty) (value : Value) : Run Result :=
  match target with
  | some name => do
    replace name type value
    done
  | none => do
    Run.drop [value]
    Run.refuse

/-- The target of a variable that holds an erased value, if a variable is named at all. -/
def lookupErased (var : Option String) : Run (Option Nat) := do
  Run.lookupHandle .slot (← Run.orRefuse var)

/-- The type that decides how a text is freed of accidents: for an erased value the stored one. -/
def shownType (v : Variable) : Run Ty :=
  match v.type, v.value with
  | .erased, .handle .slot target => do return (← Erased.type? target).getD .erased
  | t, _ => pure t

/-- The value of a type that holds nothing. -/
def emptyValue (t : Ty) : Run Value :=
  match t with
  | .cell _ => pure (.handle .cell none)
  | .erased => pure (.handle .slot none)
  | .object _ => pure (.handle .object none)
  | .function _ => pure (.handle .callable none)
  | _ => Run.refuse

def tokenDatum : Option Ty → Datum
  | some t => .list (t.token.map .text)
  | none => .null

/-- The picture of a copy, which is given up afterwards. -/
def showCopy (v : Value) : Run Result := do
  let picture ← Run.dropping [v] v.picture
  ok picture

def textOf (name : String) : Run String := do
  let v ← Run.lookup name
  Run.require v.type.renders
  v.value.toText

/-- Clone and give up a handle the given number of times. -/
def cloneAndDrop (v : Value) : Nat → Run Unit
  | 0 => pure ()
  | n + 1 => do
    let copy ← v.clone
    Run.drop [copy]
    cloneAndDrop v n

/-- Each of a number of threads holds a clone while it clones and drops. -/
def runThreads (v : Value) (iterations : Nat) : Nat → Run Unit
  | 0 => pure ()
  | n + 1 => do
    let copy ← v.clone
    cloneAndDrop copy iterations
    Run.drop [copy]
    runThreads v iterations n

def dumpVariables : List (String × Variable) → Run (List (String × Datum))
  | [] => pure []
  | (name, v) :: rest => do
    let picture ← v.value.picture
    let count ←
      match v.type, v.value with
      | .erased, .handle .slot target => (Datum.int ·) <$> Run.shareCount .slot target
      | _, _ => pure .null
    let others ← dumpVariables rest
    pure ((name, .list [picture, count]) :: others)

def dump : Run Result := do
  let fields ← dumpVariables (← get).bindings
  ok (.record fields)

/-- Edit a variable, which is out of reach meanwhile and stays if the edit is abandoned. -/
def editVariable (name : String) (path : Datum) : Run (Edit.Change Unit) := do
  let v ← Run.lookup name
  Run.unbind name
  fun w =>
    match Edit.edit v.type v.value path w with
    | .ok c w => .ok (c.map fun _ => ()) (w.bind name ⟨v.type, c.result⟩)
    | .error stop w => .error stop (w.bind name v)

def mutate (name : String) (path : Datum) : Run Result := do
  let c ← editVariable name path
  let reply ← c.finish
  ok reply

def race (type : Ty) (threads : Nat) : Run Result := do
  Run.require type.renders
  let system := (← get).registry.race type threads
  modify fun w =>
    { w with registry := system.registry }.recordAll (system.published.map .published)
  ok (.bool system.agrees)

/-- Steps on variables of any type. -/
def performCommon (fresh : Bool) : Step → Run Result
  | .define target type value => do
    let v ← Reader.read type value
    deliver target type v
  | .default target type => do
    Run.require type.hasEmpty
    let v ← emptyValue type
    deliver target type v
  | .copy target source => do
    let v ← Run.lookup source
    let copy ← v.value.clone
    deliver target v.type copy
  | .deep target source => do
    let v ← Run.lookup source
    Run.require v.type.copiesDeep
    let copy ← v.value.deepCopy
    deliver target v.type copy
  | .drop var => do
    let v ← Run.lookup var
    Run.unbind var
    Run.drop [v.value]
    done
  | .get var => do
    let picture ← (← Run.lookup var).value.picture
    ok picture
  | .text var => do
    let text ← textOf var
    let type ← shownType (← Run.lookup var)
    ok (.text (← type.stableText text))
  | .inspect var indented => do
    let v ← Run.lookup var
    let text ← v.value.inspect (if indented then .indented else .inline)
    let type ← shownType v
    ok (.text (← type.stableText text))
  | .equal a b negated => do
    let x ← Run.lookup a
    let y ← Run.lookup b
    Run.require (x.type == y.type)
    let same ← x.value.equals y.value
    ok (.bool (same != negated))
  | .sameText a b => do
    let x ← textOf a
    let y ← textOf (← Run.orRefuse b)
    ok (.bool (x == y))
  | .mutate var path => mutate var path
  | .dump => dump
  | .race type count => do race type (← Reader.readNat .usize count)
  | .tables => do
    Run.require fresh
    ok (.int (← get).registry.size)
  | _ => Run.refuse

/-- Steps on erased values. -/
def performErased : Step → Run Result
  | .new target type value => do
    Run.require type.renders
    let v ← Reader.read type value
    let slot ← Erased.new type v
    deliver target .erased (.handle .slot slot)
  | .newEmpty target => deliver target .erased (.handle .slot none)
  | .set var type value => do
    Run.require type.renders
    let v ← Reader.read type value
    let current ← Run.unwinding [v] (lookupErased var)
    let target ← Erased.set current type v
    Run.bind (← Run.orRefuse var) .erased (.handle .slot target)
    done
  | .assign var source => do
    let current ← Run.lookupHandle .slot var
    let other ← Run.lookupHandle .slot source
    if var = source then
      let temporary ← (Value.handle .slot other).clone
      let target ← Erased.assign current other
      Run.drop [temporary]
      Run.bind var .erased (.handle .slot target)
    else
      let target ← Erased.assign current other
      Run.bind var .erased (.handle .slot target)
    done
  | .clear var => do
    let current ← Run.lookupHandle .slot var
    Erased.clear current
    Run.bind var .erased (.handle .slot none)
    done
  | .isEmpty var => do
    let target ← Run.lookupHandle .slot var
    ok (.bool target.isNone)
  | .typeName var => do
    let type ← Erased.type? (← Run.lookupHandle .slot var)
    ok ((type.map (Datum.text ·.name)).getD .null)
  | .equalsNil var => do
    let empty := (← Run.lookupHandle .slot var).isNone
    ok (.list [.bool empty, .bool empty, .bool !empty])
  | .display var => do
    let v : Value := .handle .slot (← Run.lookupHandle .slot var)
    let type ← shownType ⟨.erased, v⟩
    let plain ← v.toText
    let wide ← v.toText
    let precise ← v.toText
    let texts ← [plain, "<" ++ wide ++ ">", "<" ++ precise ++ ">"].mapM type.stableText
    ok (.list (texts.map .text))
  | .isErased var type => do
    let same ← Erased.isType (← Run.lookupHandle .slot var) type
    ok (.bool same)
  | .erasedExtract var type into total => do
    Run.require type.renders
    let target ← Run.lookupHandle .slot var
    let result ←
      if total then Erased.tryExtract target type
      else .ok <$> Erased.extract target type
    match result, into with
    | .error e, _ => pure (.error e)
    | .ok v, some name => deliver name.text? type v
    | .ok v, none => showCopy v
  | .erasedDowncast var type => do
    Run.require type.renders
    match ← Erased.downcast? (← Run.lookupHandle .slot var) type with
    | none => done
    | some v => do
      let picture ← v.picture
      ok (.record [("some", picture)])
  | .erasedWith var type => do
    Run.require type.renders
    Erased.withStored (← Run.lookupHandle .slot var) type Value.picture
  | .erasedEquals var type value => do
    Run.require type.renders
    let v ← Reader.read type value
    let same ← Run.dropping [v] do
      let target ← lookupErased var
      Erased.equalsValue target type v
    ok (.bool same)
  | .threads var count iterations => do
    let target ← Run.lookupHandle .slot var
    let count ← Reader.readNat .usize count
    let iterations ← Reader.readNat .usize iterations
    runThreads (.handle .slot target) iterations count
    ok (.int (← Run.shareCount .slot target))
  | .threadDrop var => do
    let target ← Run.lookupHandle .slot var
    Run.unbind var
    Run.drop [.handle .slot target]
    done
  | _ => Run.refuse

/-- Steps on cells. -/
def performCell : Step → Run Result
  | .isReal var => do
    let target ← Run.lookupHandle .cell var
    ok (.bool target.isSome)
  | .cellGet var => do
    let copy ← Cell.get (← Run.lookupHandle .cell var)
    showCopy copy
  | .cellWith var => do
    let content ← Cell.peek (← Run.lookupHandle .cell var)
    let picture ← content.picture
    ok picture
  | _ => Run.refuse

/-- Steps on objects. -/
def performObject : Step → Run Result
  | .view var => do
    let view ← Object.view (← Run.lookupHandle .object var)
    let picture ← view.picture
    ok picture
  | .poke var n => do
    let target ← Run.lookupHandle .object var
    let _ ← Object.get target
    let n ← Reader.readNat .u32 n
    let result ← Object.poke target n
    ok (.int result)
  | .isObject var type => do
    let same ← Object.isType (← Run.lookupHandle .object var) type
    ok (.bool same)
  | .objectDowncast var type => do
    match ← Object.downcast? (← Run.lookupHandle .object var) type with
    | none => done
    | some v => do
      let picture ← v.picture
      ok (.record [("some", picture)])
  | .objectExtract var type total => do
    let target ← Run.lookupHandle .object var
    let result ←
      if total then Object.tryExtract target type
      else .ok <$> Object.extract target type
    match result with
    | .error e => pure (.error e)
    | .ok v => showCopy v
  | _ => Run.refuse

/-- The argument that a function value takes. -/
def readArgument (type : Ty) (argument : Option Datum) : Run Value := do
  let d ← Run.orRefuse argument
  match type with
  | .function .measure => do return .text (← Run.orRefuse d.text?)
  | .function _ => Reader.read (.int .i64) d
  | _ => Run.refuse

/-- Steps on function values. The function is fetched before its argument is read. -/
def performFunction : Step → Run Result
  | .call var argument total => do
    let target ← Run.lookupHandle .callable var
    let found ← if total then Function.tryGet target else .ok <$> Function.get target
    match found with
    | .error e => pure (.error e)
    | .ok _ => do
      let argument ← readArgument (← Run.lookup var).type argument
      let v ← Function.call target argument
      let picture ← v.picture
      ok picture
  | _ => Run.refuse

/-- Steps that several kinds of handles understand. -/
def performShared : Step → Run Result
  | .shareCount var => do
    match (← Run.lookup var).value with
    | .handle .slot target => do return .ok (.int (← Run.shareCount .slot target))
    | .handle .cell target => do return .ok (.int (← Run.shareCount .cell target))
    | _ => Run.refuse
  | .typeToken var => do
    match (← Run.lookup var).value with
    | .handle .slot target => do return .ok (tokenDatum (← Erased.type? target))
    | .handle .object target => do return .ok (tokenDatum (← Object.type? target))
    | _ => Run.refuse
  | .isNil var => do
    match (← Run.lookup var).value with
    | .handle .object target => ok (.bool target.isNone)
    | .handle .callable target => ok (.bool target.isNone)
    | _ => Run.refuse
  | .samePlace var other => do
    let x ← Run.lookup var
    let y ← Run.lookup other
    Run.require (x.type == y.type)
    match x.value, y.value with
    | .handle .object _, _ => Run.refuse
    | .handle _ a, .handle _ b => ok (.bool (SharedValues.samePlace a b))
    | _, _ => Run.refuse
  | _ => Run.refuse

/-- One step of a program. -/
def perform (fresh : Bool) (step : Step) : Run Result :=
  match step with
  | .define .. | .default .. | .copy .. | .deep .. | .drop _ | .get _ | .text _ | .inspect ..
  | .equal .. | .sameText .. | .mutate .. | .dump | .race .. | .tables => performCommon fresh step
  | .new .. | .newEmpty _ | .set .. | .assign .. | .clear _ | .isEmpty _ | .typeName _
  | .equalsNil _ | .display _ | .isErased .. | .erasedExtract .. | .erasedDowncast ..
  | .erasedWith .. | .erasedEquals .. | .threads .. | .threadDrop _ => performErased step
  | .isReal _ | .cellGet _ | .cellWith _ => performCell step
  | .view _ | .poke .. | .isObject .. | .objectDowncast .. | .objectExtract .. =>
    performObject step
  | .call .. => performFunction step
  | .shareCount _ | .typeToken _ | .isNil _ | .samePlace .. => performShared step

end Machine

end SharedValues
