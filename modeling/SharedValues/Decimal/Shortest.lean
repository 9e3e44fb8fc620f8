/-!
Binary floating point data and the fewest decimal digits that read back.

A finite datum is `mantissa · 2 ^ exponent`. The reals that round to it form an interval whose
ends are the midpoints to its two neighbours and belong to it exactly when the mantissa is even.
`FloatFormat.shortest` looks for a decimal in that interval on coarser grids first; all
arithmetic is exact, in `Nat`.
-/
namespace SharedValues.Decimal

/-- A binary interchange format, given by the widths of its two fields. -/
structure FloatFormat where
  fractionBits : Nat
  exponentBits : Nat
  deriving DecidableEq, Repr

/-- The magnitude that a bit pattern stands for. -/
inductive Magnitude where
  | nan
  | infinite
  | finite (mantissa : Nat) (exponent : Int)
  deriving DecidableEq, Repr

/-- The decimal `digits · 10 ^ scale`. -/
structure Digits where
  digits : Nat
  scale : Int
  deriving DecidableEq, Repr

/-- The reals that round to one datum, all in units of `2 ^ exponent`. -/
structure Interval where
  low : Nat
  mid : Nat
  high : Nat
  closed : Bool
  exponent : Int
  deriving DecidableEq, Repr

namespace FloatFormat

def single : FloatFormat := ⟨23, 8⟩
def double : FloatFormat := ⟨52, 11⟩

def fraction (f : FloatFormat) (bits : Nat) : Nat :=
  bits % Nat.pow 2 f.fractionBits

def exponentField (f : FloatFormat) (bits : Nat) : Nat :=
  bits / Nat.pow 2 f.fractionBits % Nat.pow 2 f.exponentBits

def negative (f : FloatFormat) (bits : Nat) : Bool :=
  bits / Nat.pow 2 (f.fractionBits + f.exponentBits) % 2 == 1

/-- The exponent of the last place of the smallest data. -/
def lastPlace (f : FloatFormat) : Int :=
  2 - Int.pow 2 (f.exponentBits - 1) - f.fractionBits

def magnitude (f : FloatFormat) (bits : Nat) : Magnitude :=
  if f.exponentField bits = Nat.pow 2 f.exponentBits - 1 then
    if f.fraction bits = 0 then .infinite else .nan
  else if f.exponentField bits = 0 then
    .finite (f.fraction bits) f.lastPlace
  else
    .finite (f.fraction bits + Nat.pow 2 f.fractionBits) (f.lastPlace + f.exponentField bits - 1)

def isNaN (f : FloatFormat) (bits : Nat) : Bool :=
  f.magnitude bits == .nan

/-- Equality of the numbers: the two zeros are equal, and nothing equals what is no number. -/
def equal (f : FloatFormat) (a b : Nat) : Bool :=
  match f.magnitude a, f.magnitude b with
  | .nan, _ => false
  | _, .nan => false
  | .finite 0 _, .finite 0 _ => true
  | _, _ => a == b

/-- Below a power of two the neighbour is only half as far. -/
def interval (f : FloatFormat) (mantissa : Nat) (exponent : Int) : Interval where
  low := 4 * mantissa - (if mantissa = Nat.pow 2 f.fractionBits then 1 else 2)
  mid := 4 * mantissa
  high := 4 * mantissa + 2
  closed := mantissa % 2 == 0
  exponent := exponent - 2

end FloatFormat

/-- How many decimal digits a number has; zero has none. -/
def digitCount (n : Nat) : Nat :=
  if n = 0 then 0 else (Nat.toDigits 10 n).length

/-- The place of the first digit of `num / den`. -/
def leadingPlace (num den : Nat) : Int :=
  if den ≤ num then digitCount (num / den) - 1 else -digitCount ((den - 1) / num)

namespace Interval

/-- With `place` as the unit, the interval's points are multiples of `numFactor / unit`. -/
def numFactor (i : Interval) (place : Int) : Nat :=
  Nat.pow 2 i.exponent.toNat * Nat.pow 10 (-place).toNat

def unit (i : Interval) (place : Int) : Nat :=
  Nat.pow 2 (-i.exponent).toNat * Nat.pow 10 place.toNat

def floorOn (i : Interval) (place : Int) : Nat :=
  i.mid * i.numFactor place / i.unit place

def within (i : Interval) (a b : Nat) : Bool :=
  if i.closed then a ≤ b else a < b

/-- The multiple of `10 ^ place` in the interval that is nearest to its middle; of two equally
near ones the larger. -/
def nearestOn (i : Interval) (place : Int) : Option Nat :=
  let factor := i.numFactor place
  let unit := i.unit place
  let below := i.floorOn place
  let above := below + 1
  match i.within (i.low * factor) (below * unit), i.within (above * unit) (i.high * factor) with
  | true, true =>
    some (if i.mid * factor - below * unit < above * unit - i.mid * factor then below else above)
  | true, false => some below
  | false, true => some above
  | false, false => none

/-- Try `fuel` places downwards from `place`. -/
def search (i : Interval) : Nat → Int → Digits
  | 0, place => ⟨i.floorOn place, place⟩
  | fuel + 1, place =>
    match i.nearestOn place with
    | some digits => ⟨digits, place⟩
    | none => i.search fuel (place - 1)

end Interval

/-- Move trailing zeros of the digits into the scale. -/
def Digits.trim (d : Digits) : Digits :=
  if d.digits ≠ 0 ∧ d.digits % 10 = 0 then Digits.trim ⟨d.digits / 10, d.scale + 1⟩ else d
termination_by d.digits
decreasing_by omega

/-- The fewest digits that read back; of those the nearest. Seventeen places are enough for
every format up to double precision. -/
def FloatFormat.shortest (f : FloatFormat) (mantissa : Nat) (exponent : Int) : Digits :=
  if mantissa = 0 then ⟨0, 0⟩
  else
    let i := f.interval mantissa exponent
    let place := leadingPlace (i.mid * Nat.pow 2 i.exponent.toNat) (Nat.pow 2 (-i.exponent).toNat)
    (i.search 17 place).trim

end SharedValues.Decimal
