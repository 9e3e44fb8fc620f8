import SharedValues.Datum
import SharedValues.Ty.Catalog

/-!
The steps of a program, and what has to be known of one before it starts. Values and numbers are
left as data, because they may refer to variables. Where a step makes a value, the name it goes to
is looked at only when the value is there, so such a name may be missing.
-/
namespace SharedValues

inductive Step where
  | define (target : Option String) (type : Ty) (value : Datum)
  | default (target : Option String) (type : Ty)
  | copy (target : Option String) (source : String)
  | deep (target : Option String) (source : String)
  | drop (var : String)
  | get (var : String)
  | text (var : String)
  | inspect (var : String) (indented : Bool)
  | equal (a b : String) (negated : Bool)
  | sameText (a : String) (b : Option String)
  | mutate (var : String) (path : Datum)
  | dump
  | race (type : Ty) (count : Option Datum)
  | tables
  | new (target : Option String) (type : Ty) (value : Datum)
  | newEmpty (target : Option String)
  | set (var : Option String) (type : Ty) (value : Datum)
  | assign (var source : String)
  | clear (var : String)
  | isEmpty (var : String)
  | shareCount (var : String)
  | typeName (var : String)
  | typeToken (var : String)
  | equalsNil (var : String)
  | display (var : String)
  | samePlace (var other : String)
  | isErased (var : String) (type : Ty)
  | erasedExtract (var : String) (type : Ty) (into : Option Datum) (total : Bool)
  | erasedDowncast (var : String) (type : Ty)
  | erasedWith (var : String) (type : Ty)
  | erasedEquals (var : Option String) (type : Ty) (value : Datum)
  | threads (var : String) (count iterations : Option Datum)
  | threadDrop (var : String)
  | isReal (var : String)
  | cellGet (var : String)
  | cellWith (var : String)
  | isNil (var : String)
  | view (var : String)
  | poke (var : String) (n : Option Datum)
  | isObject (var : String) (type : Ty)
  | objectDowncast (var : String) (type : Ty)
  | objectExtract (var : String) (type : Ty) (total : Bool)
  | call (var : String) (argument : Option Datum) (total : Bool)
  deriving Repr

namespace Step

def type? (d : Datum) : Option Ty :=
  (d.textField? "type").bind Ty.ofKey?

/-- The steps that do not start from a variable of their own. -/
def ofGlobal? (name : String) (d : Datum) : Option Step :=
  let target := d.textField? "var"
  match name with
  | "dump" => some .dump
  | "tables" => some .tables
  | "race" => do return .race (← type? d) (d.field? "threads")
  | "eq" => do return .equal (← d.textField? "a") (← d.textField? "b") false
  | "ne" => do return .equal (← d.textField? "a") (← d.textField? "b") true
  | "same_text" => do return .sameText (← d.textField? "a") (d.textField? "b")
  | "let" => do return .define target (← type? d) (← d.field? "value")
  | "default" => do return .default target (← type? d)
  | "copy" => do return .copy target (← d.textField? "from")
  | "deep" => do return .deep target (← d.textField? "from")
  | "new" => do return .new target (← type? d) (← d.field? "value")
  | "from_nil" => some (.newEmpty target)
  | "set" => do return .set target (← type? d) (← d.field? "value")
  | "any_equals_value" => do return .erasedEquals target (← type? d) (← d.field? "value")
  | _ => none

/-- The steps on a variable that need nothing else. -/
def ofVariable? (name var : String) : Option Step :=
  match name with
  | "drop" => some (.drop var)
  | "get" => some (.get var)
  | "text" => some (.text var)
  | "debug" => some (.inspect var false)
  | "debug_alt" => some (.inspect var true)
  | "clear" => some (.clear var)
  | "set_nil" => some (.clear var)
  | "is_empty" => some (.isEmpty var)
  | "share_count" => some (.shareCount var)
  | "type_name" => some (.typeName var)
  | "type_token" => some (.typeToken var)
  | "eq_nil" => some (.equalsNil var)
  | "display" => some (.display var)
  | "thread_drop" => some (.threadDrop var)
  | "is_real" => some (.isReal var)
  | "ref_get" => some (.cellGet var)
  | "ref_with" => some (.cellWith var)
  | "is_nil" => some (.isNil var)
  | "view" => some (.view var)
  | _ => none

/-- The steps on a variable that need further fields. -/
def ofFields? (name var : String) (d : Datum) : Option Step :=
  match name with
  | "mutate" => do return .mutate var (← d.field? "m")
  | "assign" => do return .assign var (← d.textField? "from")
  | "ptr_eq" => do return .samePlace var (← d.textField? "other")
  | "any_is" => do return .isErased var (← (d.textField? "type").bind Ty.tokenOfKey?)
  | "any_extract" => do return .erasedExtract var (← type? d) (d.field? "into") false
  | "any_try_extract" => do return .erasedExtract var (← type? d) (d.field? "into") true
  | "any_downcast" => do return .erasedDowncast var (← type? d)
  | "any_with" => do return .erasedWith var (← type? d)
  | "threads" => some (.threads var (d.field? "threads") (d.field? "iters"))
  | "poke" => some (.poke var (d.field? "n"))
  | "type_is" => do return .isObject var (← type? d)
  | "downcast" => do return .objectDowncast var (← type? d)
  | "extract" => do return .objectExtract var (← type? d) false
  | "try_extract" => do return .objectExtract var (← type? d) true
  | "call" => some (.call var (d.field? "arg") false)
  | "try_call" => some (.call var (d.field? "arg") true)
  | _ => none

def ofDatum? (d : Datum) : Option Step := do
  let name ← d.textField? "do"
  match ofGlobal? name d with
  | some step => some step
  | none =>
    let var ← d.textField? "var"
    match ofVariable? name var with
    | some step => some step
    | none => ofFields? name var d

end Step

end SharedValues
