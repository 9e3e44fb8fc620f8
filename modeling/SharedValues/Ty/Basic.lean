/-!
The types of values. A type is data: it drives reading, printing of its name and editing, and two
types are the same exactly when they are equal here.
-/
namespace SharedValues

inductive IntType where
  | u8 | u16 | u32 | u64 | u128 | usize
  | i8 | i16 | i32 | i64 | i128 | isize
  deriving DecidableEq, Repr

namespace IntType

def signed : IntType → Bool
  | .u8 | .u16 | .u32 | .u64 | .u128 | .usize => false
  | .i8 | .i16 | .i32 | .i64 | .i128 | .isize => true

def bits : IntType → Nat
  | .u8 | .i8 => 8
  | .u16 | .i16 => 16
  | .u32 | .i32 => 32
  | .u64 | .i64 | .usize | .isize => 64
  | .u128 | .i128 => 128

def minimum (t : IntType) : Int :=
  if t.signed then -Int.pow 2 (t.bits - 1) else 0

def maximum (t : IntType) : Int :=
  if t.signed then Int.pow 2 (t.bits - 1) - 1 else Int.pow 2 t.bits - 1

def holds (t : IntType) (n : Int) : Bool :=
  t.minimum ≤ n && n ≤ t.maximum

/-- The number of the type that agrees with `n` modulo the number of values. -/
def wrap (t : IntType) (n : Int) : Int :=
  if t.signed then n.bmod (Nat.pow 2 t.bits) else n % Int.pow 2 t.bits

end IntType

/-- What an object can be seen as. -/
inductive Interface where
  | pet | named | text | ints
  deriving DecidableEq, Repr

/-- What a function value takes and gives: closures and plain functions on integers, and
measures of texts. -/
inductive Signature where
  | closure | plain | measure
  deriving DecidableEq, Repr

/-- The types. A tuple adds one component in front of a shorter tuple, and `unit` is the empty
one. The last group has no values here and serves as a name only. -/
inductive Ty where
  | int (t : IntType)
  | float32 | float64 | bool | char
  | string | borrowed
  | list (elem : Ty)
  | array (elem : Ty) (size : Nat)
  | option (elem : Ty)
  | boxed (elem : Ty)
  | sortedMap (key value : Ty)
  | hashedMap (key value : Ty)
  | fixedMap (key value : Ty)
  | unit
  | tuple (first rest : Ty)
  | cell (elem : Ty)
  | erased
  | object (interface : Interface)
  | function (signature : Signature)
  | meters | feet | probe | dog | cat | counter | inventory | dyn
  | nil | textSlice | intSlice | interface (interface : Interface)
  deriving DecidableEq, Repr

namespace Ty

/-- The component types of a tuple. -/
def components : Ty → List Ty
  | .tuple first rest => first :: rest.components
  | _ => []

/-- Does `p` hold of the type or of one it is built from? -/
def mentions (p : Ty → Bool) : Ty → Bool
  | t@(.list elem) | t@(.array elem _) | t@(.option elem) | t@(.boxed elem) | t@(.cell elem) =>
    p t || elem.mentions p
  | t@(.sortedMap key value) | t@(.hashedMap key value) | t@(.fixedMap key value) =>
    p t || key.mentions p || value.mentions p
  | t@(.tuple first rest) => p t || first.mentions p || rest.mentions p
  | t => p t

/-- Can values of the type be written as text, and so be erased? -/
def renders (t : Ty) : Bool :=
  !t.mentions fun
    | .unit | .tuple .. | .nil | .textSlice | .intSlice | .interface _ => true
    | _ => false

/-- Can values of the type be copied deeply? -/
def copiesDeep (t : Ty) : Bool :=
  !t.mentions (· == .erased)

def hasObject (t : Ty) : Bool :=
  t.mentions fun
    | .object _ => true
    | _ => false

def hasHashedMap (t : Ty) : Bool :=
  t.mentions fun
    | .hashedMap .. | .fixedMap .. => true
    | _ => false

/-- Has the type an empty value that needs no input? -/
def hasEmpty (t : Ty) : Bool :=
  match t with
  | .cell _ | .erased | .object _ | .function _ => t.renders
  | _ => false

end Ty

end SharedValues
