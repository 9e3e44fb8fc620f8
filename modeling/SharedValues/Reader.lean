import SharedValues.Erased
import SharedValues.Function
import SharedValues.Picture
import SharedValues.Ty.Catalog
import SharedValues.Value.Map
import SharedValues.Variables

/-!
Reading values. The type says what a datum has to look like; everything is read from left to
right, a record with a field `$var` stands for a clone of a variable of exactly the expected type,
also where a number or a text is part of something larger, and what has been read before a refusal
is given up.
-/
namespace SharedValues

namespace Hook

def all : List Hook :=
  [.clone, .eq, .render, .deep, .sound, .poke]

def ofName? (name : String) : Option Hook :=
  all.find? (·.name == name)

end Hook

namespace Variant

def all : List Variant :=
  [.int, .text, .probe, .seq, .arr, .map, .opt, .cell, .any]

def ofKey? (key : String) : Option Variant :=
  all.find? (·.key == key)

/-- The type of what an alternative holds. -/
def content : Variant → Ty
  | .int => .int .i64
  | .text => .string
  | .probe => .probe
  | .seq => .list .dyn
  | .arr => .boxed (.array .dyn 2)
  | .map => .sortedMap .string .dyn
  | .opt => .option (.boxed .dyn)
  | .cell => .cell .dyn
  | .any => .erased

end Variant

namespace Run

/-- Read the entries of a map and insert them one by one. -/
def collectEntries (entries : Entries) : List (Run (Value × Value)) → Run Entries
  | [] => pure entries
  | act :: acts => do
    let (key, value) ← unwinding entries.list act
    let (entries, left) := entries.insert key value
    drop left
    collectEntries entries acts

/-- As many copies of a value as given. The value itself is the last of them. -/
def replicate : Nat → Value → Run (List Value)
  | 0, v => do
    drop [v]
    pure []
  | n + 1, v => do
    let clones ← unwinding [v] (collect .sequence [] (List.replicate n v.clone))
    pure (clones ++ [v])

end Run

namespace Reader

def readInt (t : IntType) (d : Datum) : Run Int := do
  let n ← Run.orRefuse (d.int? t.signed)
  Run.require (t.holds n)
  pure n

def readChar (d : Datum) : Run Char := do
  match (← Run.orRefuse d.text?).toList with
  | [c] => pure c
  | _ => Run.refuse

def expectInt : Value → Run Int
  | .scalar (.int n) => pure n
  | _ => Run.refuse

/-- A clone of a variable, which must have the expected type. -/
def readVariable (t : Ty) (name : String) : Run Value := do
  let v ← Run.lookup name
  Run.require (v.type == t)
  v.value.clone

/-- Wrap a value of the recursive sample type once. -/
def wrapDyn (kind : String) (v : Value) : Run Value :=
  match kind with
  | "seq" => pure (.node (.variant .seq) [.node .sequence [v]])
  | "map" => pure (.node (.variant .map) [(Entries.empty.insert (.text "k") v).1.toValue])
  | "opt" => pure (.node (.variant .opt) [.node .some [.node .box [v]]])
  | "cell" => do
    let target ← Cell.new .dyn v
    pure (.node (.variant .cell) [.handle .cell target])
  | _ => Run.unwinding [v] Run.refuse

def nestDyn (kind : String) : Nat → Value → Run Value
  | 0, v => pure v
  | n + 1, v => do
    let v ← wrapDyn kind v
    nestDyn kind n v

/-- The functions that capture nothing. -/
def plainCode? : Signature → String → Option Code
  | .plain, "inc" => some .increment
  | .plain, "square" => some .square
  | .measure, "bytes" => some .byteCount
  | .measure, "chars" => some .charCount
  | _, _ => none

def function (code : Code) (captured : Value) : Run Value := do
  let target ← Function.new code captured
  pure (.handle .callable target)

/-- The closures over a number. -/
def numberCode? : String → Option (Int → Code)
  | "add" => some .add
  | "mul" => some .mul
  | _ => none

/-- The functions that are made from texts alone. -/
def readFunction (signature : Signature) (name : String) (d : Datum) : Run Value := do
  let code ←
    match signature, name with
    | .closure, "panic" => .raise <$> Run.orRefuse (d.textField? "msg")
    | _, _ => Run.orRefuse (plainCode? signature name)
  function code .unit

/-- Read a value of a type. -/
def read (t : Ty) (d : Datum) : Run Value :=
  match d.field? "$var" with
  | some name => do readVariable t (← Run.orRefuse name.text?)
  | none =>
    match t with
    | .int it => do return .int (← readInt it d)
    | .float32 => do return .scalar (.float32 (.ofNat (← Run.orRefuse (d.bits? 8))))
    | .float64 => do return .scalar (.float64 (.ofNat (← Run.orRefuse (d.bits? 16))))
    | .bool =>
      match d with
      | .bool b => pure (.scalar (.bool b))
      | _ => Run.refuse
    | .char => do return .scalar (.char (← readChar d))
    | .string | .borrowed => do return .text (← Run.orRefuse d.text?)
    | .unit =>
      match d with
      | .null => pure .unit
      | _ => Run.refuse
    | .list elem =>
      match d with
      | .list ds => do
        let parts ← Run.collect .sequence [] (ds.attach.map fun ⟨x, _⟩ => read elem x)
        pure (.node .sequence parts)
      | _ => Run.refuse
    | .array elem size =>
      match d with
      | .list ds => do
        let parts ← Run.collect .sequence [] (ds.attach.map fun ⟨x, _⟩ => read elem x)
        Run.unwinding parts (Run.require (parts.length == size))
        pure (.node .sequence parts)
      | _ => Run.refuse
    | .tuple first rest =>
      match d with
      | .list ds => do
        let types := first :: rest.components
        Run.require (ds.length == types.length)
        let parts ← Run.collect .tuple []
          ((types.zip ds.attach).map fun ⟨c, ⟨x, _⟩⟩ => read c x)
        pure (.node .tuple parts)
      | _ => Run.refuse
    | .option elem =>
      if d.isNull then pure (.node .none [])
      else
        match _h : d.field? "some" with
        | some x => do return .node .some [← read elem x]
        | none => Run.refuse
    | .boxed elem => do return .node .box [← read elem d]
    | .sortedMap key value | .hashedMap key value | .fixedMap key value =>
      match d with
      | .list ds => do
        let entries ← Run.collectEntries .empty (ds.attach.map fun ⟨x, _⟩ =>
          match x with
          | .list [k, v] => do
            let k ← read key k
            let v ← Run.unwinding [k] (read value v)
            pure (k, v)
          | _ => Run.refuse)
        pure entries.toValue
      | _ => Run.refuse
    | .cell elem =>
      if d.isNull then pure (.handle .cell none)
      else
        match _h : d.field? "ref" with
        | some x => do return .handle .cell (← Cell.new elem (← read elem x))
        | none => Run.refuse
    | .erased =>
      if d.isNull then pure (.handle .slot none)
      else
        match _h : d.field? "value" with
        | some x => do
          let type ← Run.orRefuse ((d.textField? "type").bind Ty.ofKey?)
          Run.require type.renders
          return .handle .slot (← Erased.new type (← read type x))
        | none => Run.refuse
    | .object interface =>
      if d.isNull then pure (.handle .object none)
      else
        match _h : d.field? "v" with
        | some x => do
          let type ← Run.orRefuse ((d.textField? "impl").bind Ty.ofKey?)
          Run.require (interface.accepts type)
          return .handle .object (← Object.new interface type (← read type x))
        | none => Run.refuse
    | .function signature =>
      if d.isNull then pure (.handle .callable none)
      else do
        let name ← Run.orRefuse (d.textField? "fn")
        match signature, name with
        | .closure, "tally" =>
          match _h : d.field? "total" with
          | some x => do function .tally (← read (.cell (.int .i64)) x)
          | none => Run.refuse
        | .closure, "probe" =>
          match _h : d.field? "probe" with
          | some x => do
            match ← read .probe x with
            | .probe p =>
              let f ← function (.add p.id) .unit
              Run.drop [.probe p]
              pure f
            | v => Run.unwinding [v] Run.refuse
          | none => Run.refuse
        | .closure, name =>
          match numberCode? name, _h : d.field? "k" with
          | some code, some x => do function (code (← expectInt (← read (.int .i64) x))) .unit
          | some _, none => Run.refuse
          | none, _ => readFunction signature name d
        | _, _ => readFunction signature name d
    | .meters => do return .node .meters [.int (← readInt .i64 d)]
    | .feet => do return .node .feet [.int (← readInt .i64 d)]
    | .cat => do return .node .cat [.int (← readInt .u8 d)]
    | .counter => do return .node .counter [.int (← readInt .u32 d)]
    | .probe =>
      match d with
      | .record fields =>
        match _h : (Datum.record fields).field? "id" with
        | some x => do
          let id ← expectInt (← read (.int .i64) x)
          let refused ← Run.orRefuse ((Datum.record fields).textField? "boom")
          Run.create ⟨id, Hook.ofName? refused⟩
        | none => Run.refuse
      | _ => do Run.create ⟨← readInt .i64 d, none⟩
    | .dog =>
      match _h₁ : d.field? "name", _h₂ : d.field? "tricks" with
      | some x, some y => do
        let name ← read .string x
        let tricks ← Run.unwinding [name] (read (.cell (.list .string)) y)
        pure (.node .dog [name, tricks])
      | _, _ => Run.refuse
    | .inventory =>
      match _h₁ : d.field? "owner", _h₂ : d.field? "items", _h₃ : d.field? "stock" with
      | some x, some y, some z => do
        let owner ← read .string x
        let items ← Run.unwinding [owner] (read (.list .string) y)
        let stock ← Run.unwinding [items, owner]
          (read (.cell (.sortedMap .string (.int .u32))) z)
        pure (.node .inventory [owner, items, stock])
      | _, _, _ => Run.refuse
    | .dyn =>
      match d with
      | .record [("repeat", r)] =>
        match _h : r.field? "v" with
        | some x => do
          let v ← read .dyn x
          let count ← Run.unwinding [v] <|
            match _h : r.field? "n" with
            | some n => do expectInt (← read (.int .usize) n)
            | none => Run.refuse
          let parts ← Run.replicate count.toNat v
          pure (.node (.variant .seq) [.node .sequence parts])
        | none => Run.refuse
      | .record [("nest", r)] =>
        match _h : r.field? "leaf" with
        | some x => do
          let leaf ← read .dyn x
          let count ← Run.unwinding [leaf] <|
            match _h : r.field? "n" with
            | some n => do expectInt (← read (.int .usize) n)
            | none => Run.refuse
          let kind ← Run.unwinding [leaf] (Run.orRefuse (r.textField? "kind"))
          nestDyn kind count.toNat leaf
        | none => Run.refuse
      | .record [(key, x)] => do
        let v ← Run.orRefuse (Variant.ofKey? key)
        return .node (.variant v) [← read v.content x]
      | _ => Run.refuse
    | .nil | .textSlice | .intSlice | .interface _ => Run.refuse
termination_by (sizeOf d, sizeOf t)
decreasing_by
  all_goals first
    | decreasing_tactic
    | exact .left _ _ (Datum.sizeOf_field ‹_›)
    | exact .left _ _ (Datum.sizeOf_innerField ‹_›)
    | exact .left _ _ (Datum.sizeOf_key ‹_›)
    | exact .left _ _ (Datum.sizeOf_value ‹_›)

/-- Read a number that a step or a path needs. -/
def readNat (t : IntType) (d : Option Datum) : Run Nat := do
  let n ← expectInt (← read (.int t) (← Run.orRefuse d))
  pure n.toNat

end Reader

end SharedValues
