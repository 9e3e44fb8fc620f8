import SharedValues.Decimal.Layout
import SharedValues.Text.Quoted

/-!
Scalars: the values without parts. Floats are kept as bit patterns, so that their equality and
their text are defined on numbers that the logic can see.
-/
namespace SharedValues

open Decimal

inductive Scalar where
  | unit
  | bool (b : Bool)
  | int (n : Int)
  | float32 (bits : UInt32)
  | float64 (bits : UInt64)
  | char (c : Char)
  | text (s : String)
  deriving DecidableEq, Repr

namespace Scalar

def isNaN : Scalar → Bool
  | .float32 bits => FloatFormat.single.isNaN bits.toNat
  | .float64 bits => FloatFormat.double.isNaN bits.toNat
  | _ => false

def equals : Scalar → Scalar → Bool
  | .float32 a, .float32 b => FloatFormat.single.equal a.toNat b.toNat
  | .float64 a, .float64 b => FloatFormat.double.equal a.toNat b.toNat
  | a, b => a == b

/-- The order of keys: false before true, texts by their code points. -/
def order : Scalar → Scalar → Ordering
  | .bool a, .bool b => compare a b
  | .int a, .int b => compare a b
  | .char a, .char b => compare a.toNat b.toNat
  | .text a, .text b => compare a b
  | _, _ => .eq

/-- The text for readers. -/
def display : Scalar → String
  | .unit => ""
  | .bool b => if b then "true" else "false"
  | .int n => toString n
  | .float32 bits => FloatFormat.single.write .plain bits.toNat
  | .float64 bits => FloatFormat.double.write .plain bits.toNat
  | .char c => String.singleton c
  | .text s => s

/-- The text for inspection. -/
def inspect : Scalar → String
  | .unit => "()"
  | .float32 bits => FloatFormat.single.write .inspection bits.toNat
  | .float64 bits => FloatFormat.double.write .inspection bits.toNat
  | .char c => Text.quoteChar c
  | .text s => Text.quoteText s
  | s => s.display

end Scalar

end SharedValues
