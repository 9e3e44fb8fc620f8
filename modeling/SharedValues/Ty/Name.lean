import SharedValues.Ty.Basic

/-!
The two spellings of a type: its full name, which answers and events show, and the short key by
which a request asks for it.
-/
namespace SharedValues

def IntType.name : IntType → String
  | .u8 => "u8" | .u16 => "u16" | .u32 => "u32" | .u64 => "u64" | .u128 => "u128"
  | .usize => "usize"
  | .i8 => "i8" | .i16 => "i16" | .i32 => "i32" | .i64 => "i64" | .i128 => "i128"
  | .isize => "isize"

def Interface.name : Interface → String
  | .pet => "dyn oracle_driver::types::Pet"
  | .named => "dyn oracle_driver::types::Named"
  | .text => "str"
  | .ints => "[i32]"

def Interface.key : Interface → String
  | .pet => "dyn Pet"
  | .named => "dyn Named"
  | .text => "str"
  | .ints => "[i32]"

def Signature.name : Signature → String
  | .closure =>
    "dyn core::ops::function::Fn(i64) -> i64 + core::marker::Send + core::marker::Sync"
  | .plain => "fn(i64) -> i64"
  | .measure => "fn(&'_ str) -> usize"

def Signature.key : Signature → String
  | .closure => "dyn Fn"
  | .plain => "fn"
  | .measure => "fn(&str)"

namespace Ty

/-- The components of a tuple in parentheses; a single one keeps its comma. -/
def parenthesize (separator : String) (parts : List String) : String :=
  match parts with
  | [part] => "(" ++ part ++ ",)"
  | _ => "(" ++ String.intercalate separator parts ++ ")"

mutual

def name : Ty → String
  | .int t => t.name
  | .float32 => "f32"
  | .float64 => "f64"
  | .bool => "bool"
  | .char => "char"
  | .string => "alloc::string::String"
  | .borrowed => "&str"
  | .list elem => "alloc::vec::Vec<" ++ elem.name ++ ">"
  | .array elem size => "[" ++ elem.name ++ "; " ++ toString size ++ "]"
  | .option elem => "core::option::Option<" ++ elem.name ++ ">"
  | .boxed elem => "alloc::boxed::Box<" ++ elem.name ++ ">"
  | .sortedMap k v =>
    "alloc::collections::btree::map::BTreeMap<" ++ k.name ++ ", " ++ v.name ++ ">"
  | .hashedMap k v =>
    "std::collections::hash::map::HashMap<" ++ k.name ++ ", " ++ v.name ++ ">"
  | .fixedMap k v =>
    "std::collections::hash::map::HashMap<" ++ k.name ++ ", " ++ v.name ++
      ", core::hash::BuildHasherDefault<std::hash::random::DefaultHasher>>"
  | .unit => "()"
  | .tuple first rest => parenthesize ", " (first.name :: rest.componentNames)
  | .cell elem => "rcany::shared::Ref<" ++ elem.name ++ ">"
  | .erased => "rcany::any_value::AnyValue"
  | .object i => "rcany::interface::Trait<" ++ i.name ++ ">"
  | .function s => "rcany::func::Func<" ++ s.name ++ ">"
  | .meters => "oracle_driver::types::Meters"
  | .feet => "oracle_driver::types::Feet"
  | .probe => "oracle_driver::types::Probe"
  | .dog => "oracle_driver::types::Dog"
  | .cat => "oracle_driver::types::Cat"
  | .counter => "oracle_driver::types::Counter"
  | .inventory => "oracle_driver::types::Inventory"
  | .dyn => "oracle_driver::types::Dyn"
  | .nil => "rcany::any_value::Nil"
  | .textSlice => "str"
  | .intSlice => "[i32]"
  | .interface i => i.name

def componentNames : Ty → List String
  | .tuple first rest => first.name :: rest.componentNames
  | _ => []

end

mutual

def key : Ty → String
  | .string => "String"
  | .list elem => "Vec<" ++ elem.key ++ ">"
  | .array elem size => "[" ++ elem.key ++ ";" ++ toString size ++ "]"
  | .option elem => "Option<" ++ elem.key ++ ">"
  | .boxed elem => "Box<" ++ elem.key ++ ">"
  | .sortedMap k v => "BTreeMap<" ++ k.key ++ "," ++ v.key ++ ">"
  | .hashedMap k v => "HashMap<" ++ k.key ++ "," ++ v.key ++ ">"
  | .fixedMap .. => "FixedMap"
  | .tuple first rest => parenthesize "," (first.key :: rest.componentKeys)
  | .cell elem => "Ref<" ++ elem.key ++ ">"
  | .erased => "AnyValue"
  | .object i => "Trait<" ++ i.key ++ ">"
  | .function s => "Func<" ++ s.key ++ ">"
  | .meters => "Meters"
  | .feet => "Feet"
  | .probe => "Probe"
  | .dog => "Dog"
  | .cat => "Cat"
  | .counter => "Counter"
  | .inventory => "Inventory"
  | .dyn => "Dyn"
  | .nil => "Nil"
  | .interface i => i.key
  | t => t.name

def componentKeys : Ty → List String
  | .tuple first rest => first.key :: rest.componentKeys
  | _ => []

end

/-- The spellings of a type as a token: its name twice, and a form for inspection. -/
def token (t : Ty) : List String :=
  [t.name, t.name, "TypeToken(" ++ t.name ++ ")"]

end Ty

end SharedValues
