import TreeScript.Decimal.Shortest

/-!
# Reading decimals

Integers are an optional sign and at least one digit. Decimals also may have a point and an
exponent, with at least one digit before or after the point and at least one in the exponent.
A decimal is turned into the nearest floating-point number, ties to even.
-/

namespace TreeScript

/-- The number `digits * 10 ^ exponent`, negated if `negative`. -/
structure Decimal where
  negative : Bool
  digits : Nat
  exponent : Int
deriving DecidableEq, Repr

namespace Decimal

/-- The number that a run of digits denotes. -/
def ofDigits (digits : List Char) : Nat :=
  digits.foldl (fun total digit => 10 * total + (digit.toNat - '0'.toNat)) 0

/-- A leading sign and what follows it; no sign counts as plus. -/
def splitSign : List Char → Bool × List Char
  | '-' :: rest => (true, rest)
  | '+' :: rest => (false, rest)
  | chars => (false, chars)

/-- A whole text as an integer. -/
def readInteger? (text : String) : Option Int :=
  let (negative, digits) := splitSign text.toList
  if !digits.isEmpty && digits.all Char.isDigit then
    some (if negative then -(ofDigits digits : Int) else ofDigits digits)
  else none

/-- An exponent, or nothing, up to the end of the text. -/
def readExponent? : List Char → Option Int
  | [] => some 0
  | mark :: rest =>
    if mark == 'e' || mark == 'E' then readInteger? (String.ofList rest) else none

/-- A point and the digits after it, if the characters begin with a point. -/
def splitFraction : List Char → List Char × List Char
  | '.' :: rest => (rest.takeWhile Char.isDigit, rest.dropWhile Char.isDigit)
  | chars => ([], chars)

/-- A whole text as a decimal. -/
def read? (text : String) : Option Decimal := do
  let (negative, chars) := splitSign text.toList
  let whole := chars.takeWhile Char.isDigit
  let (fraction, rest) := splitFraction (chars.dropWhile Char.isDigit)
  let exponent ← readExponent? rest
  if whole.isEmpty && fraction.isEmpty then none
  else some ⟨negative, ofDigits (whole ++ fraction), exponent - fraction.length⟩

/-- The decimal with the given digits. -/
def ofShortest (negative : Bool) (digits : Digits) : Decimal :=
  ⟨negative, ofDigits digits.chars, digits.exponent - (digits.chars.length - 1 : Nat)⟩

/-- Where a decimal's size lies for both widths: past all finite numbers, below them all, or in
reach of them. -/
inductive Reach where
  | zero
  | infinite
  | ordinary
deriving DecidableEq, Repr

/-- Sort a decimal by its size, so that no huge power of ten need be computed. -/
def reach (decimal : Decimal) : Reach :=
  let size := (Nat.toDigits 10 decimal.digits).length + decimal.exponent
  if decimal.digits = 0 || size < -400 then .zero
  else if 400 < size then .infinite
  else .ordinary

/-- The nearest number of double width. -/
def toFloat (decimal : Decimal) : Float :=
  let magnitude :=
    match decimal.reach with
    | .zero => 0
    | .infinite => 1 / 0
    | .ordinary =>
      Float.ofScientific decimal.digits (decimal.exponent < 0) decimal.exponent.natAbs
  if decimal.negative then -magnitude else magnitude

/-- The nearest number of single width. -/
def toFloat32 (decimal : Decimal) : Float32 :=
  let magnitude :=
    match decimal.reach with
    | .zero => 0
    | .infinite => 1 / 0
    | .ordinary =>
      Float32.ofScientific decimal.digits (decimal.exponent < 0) decimal.exponent.natAbs
  if decimal.negative then -magnitude else magnitude

end Decimal

/-- Widen a number of single width to the double nearest to its shortest decimal. -/
def widenByDecimal (x : Float32) : Float :=
  match Decoded.ofFloat32 x with
  | .notANumber => 0 / 0
  | .infinite negative => if negative then -(1 / 0) else 1 / 0
  | .finite negative mantissa exponent =>
    (Decimal.ofShortest negative (BinaryFormat.single.shortest mantissa exponent)).toFloat

end TreeScript
