import TreeScript.Decimal.Binary

/-!
# The shortest decimal of a number

Among the decimals that read back as a given floating-point number, this selects one with the
fewest digits, and among those the one nearest to the number; of two that are equally near, the
larger. The decimals that read back are those between the midpoints to the two neighbouring
numbers, midpoints included when the number's mantissa is even. All arithmetic is on integers.
-/

namespace TreeScript

/-- Decimal digits and the power of ten that the first of them counts. -/
structure Digits where
  /-- The digits, most significant first, without zeros at the end. -/
  chars : List Char
  /-- The power of ten of the first digit. -/
  exponent : Int
deriving DecidableEq, Repr

namespace Digits

/-- The number zero. -/
def zero : Digits := ⟨['0'], 0⟩

/-- The digits of `count * 10 ^ power`. -/
def ofScaled (count : Nat) (power : Int) : Digits :=
  let chars := Nat.toDigits 10 count
  ⟨(chars.reverse.dropWhile (· == '0')).reverse, power + (chars.length - 1 : Nat)⟩

end Digits

/-- The fractions over one denominator that round to a number: from `low` to `high` around
`value`. -/
structure RoundingInterval where
  low : Nat
  value : Nat
  high : Nat
  denominator : Nat
  /-- Whether the ends round to the number too. -/
  closed : Bool
deriving DecidableEq, Repr

namespace RoundingInterval

/-- The fractions that round to `mantissa * 2 ^ exponent` in a format.

The numbers just below a power of two lie closer together than those above it. -/
def around (format : BinaryFormat) (mantissa : Nat) (exponent : Int) : RoundingInterval :=
  let below :=
    if mantissa = Nat.pow 2 format.fractionBits ∧ format.leastExponent < exponent then 1 else 2
  let scale := Nat.pow 2 (exponent - 2).toNat
  { low := (4 * mantissa - below) * scale
    value := 4 * mantissa * scale
    high := (4 * mantissa + 2) * scale
    denominator := Nat.pow 2 (2 - exponent).toNat
    closed := mantissa % 2 == 0 }

/-- The same interval with every fraction multiplied by a power of ten. -/
def timesPower (interval : RoundingInterval) (power : Nat) : RoundingInterval :=
  { interval with
    low := interval.low * Nat.pow 10 power
    value := interval.value * Nat.pow 10 power
    high := interval.high * Nat.pow 10 power }

/-- The power of ten of the value's first digit. -/
def leadingPower (interval : RoundingInterval) : Int :=
  if interval.denominator ≤ interval.value then
    ((Nat.toDigits 10 (interval.value / interval.denominator)).length - 1 : Nat)
  else
    let size := (Nat.toDigits 10 (interval.denominator / interval.value)).length
    if interval.value * Nat.pow 10 (size - 1) = interval.denominator then -(size - 1 : Nat)
    else -(size : Nat)

/-- Whether a numerator over the interval's denominator rounds to the number. -/
def contains (interval : RoundingInterval) (numerator : Nat) : Bool :=
  if interval.closed then interval.low ≤ numerator && numerator ≤ interval.high
  else interval.low < numerator && numerator < interval.high

/-- The multiple of `10 ^ power` nearest to the value, if one rounds to the number. -/
def multipleOf? (interval : RoundingInterval) (power : Int) : Option Nat :=
  let scaled := interval.timesPower (-power).toNat
  let unit := scaled.denominator * Nat.pow 10 power.toNat
  let under := scaled.value / unit
  let underFits := scaled.contains (under * unit)
  let overFits := scaled.contains ((under + 1) * unit)
  let overNearer := unit ≤ 2 * (scaled.value - under * unit)
  if overFits && (overNearer || !underFits) then some (under + 1)
  else if underFits then some under
  else none

/-- The shortest decimal that rounds to the number.

Powers are tried from that of the first digit downwards. Seventeen digits are enough for every
number of double width. -/
def shortest (interval : RoundingInterval) : Digits :=
  let leading := interval.leadingPower
  let found := (List.range 17).findSome? fun (extra : Nat) =>
    let power := leading - extra
    (interval.multipleOf? power).map fun count => Digits.ofScaled count power
  found.getD .zero

end RoundingInterval

/-- The shortest decimal of `mantissa * 2 ^ exponent` in a format. -/
def BinaryFormat.shortest (format : BinaryFormat) (mantissa : Nat) (exponent : Int) : Digits :=
  if mantissa = 0 then .zero else (RoundingInterval.around format mantissa exponent).shortest

end TreeScript
