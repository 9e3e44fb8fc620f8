import SharedValues.Decimal.Shortest

/-!
How the digits of a number are written: where positional notation ends, and whether a whole
number keeps its point.
-/
namespace SharedValues.Decimal

structure NumberStyle where
  /-- A whole number is written with `.0`. -/
  keepPoint : Bool
  /-- The places of a first digit for which no exponent is written. -/
  positional : Int → Bool

namespace NumberStyle

/-- Text for readers: never an exponent. -/
def plain : NumberStyle := ⟨false, fun _ => true⟩

/-- Text for inspection: positional from a ten-thousandth to below ten to the sixteenth. -/
def inspection : NumberStyle := ⟨true, fun place => -4 ≤ place && place < 16⟩

end NumberStyle

namespace Digits

def text (d : Digits) : List Char :=
  Nat.toDigits 10 d.digits

/-- The place of the first digit. -/
def firstPlace (d : Digits) : Int :=
  d.text.length - 1 + d.scale

def positional (keepPoint : Bool) (d : Digits) : List Char :=
  let whole := d.text.length - (-d.scale).toNat
  if 0 ≤ d.scale then
    d.text ++ List.replicate d.scale.toNat '0' ++ (if keepPoint then ['.', '0'] else [])
  else if whole = 0 then
    ['0', '.'] ++ List.replicate ((-d.scale).toNat - d.text.length) '0' ++ d.text
  else
    d.text.take whole ++ ['.'] ++ d.text.drop whole

def scientific (d : Digits) : List Char :=
  let point := if d.text.length = 1 then [] else ['.']
  d.text.take 1 ++ point ++ d.text.drop 1 ++ ['e'] ++ (toString d.firstPlace).toList

def write (style : NumberStyle) (d : Digits) : List Char :=
  if d.digits = 0 || style.positional d.firstPlace then d.positional style.keepPoint
  else d.scientific

end Digits

/-- The text of a float. The sign of what is no number is not written. -/
def FloatFormat.write (f : FloatFormat) (style : NumberStyle) (bits : Nat) : String :=
  let sign := if f.negative bits then "-" else ""
  match f.magnitude bits with
  | .nan => "NaN"
  | .infinite => sign ++ "inf"
  | .finite mantissa exponent => sign ++ String.ofList ((f.shortest mantissa exponent).write style)

end SharedValues.Decimal
