import TreeScript.Decimal.Shortest

/-!
# Laying out decimals

A decimal is written positionally or with an exponent. Which of the two, and whether a whole
number keeps a zero after the point, is settled by a layout. Values of a running program and
literals in an outline have a layout each.
-/

namespace TreeScript

/-- How numbers are written, by the power of ten of their first digit. -/
structure NumberLayout where
  /-- Whether a number is written without an exponent. -/
  positional : Int → Bool
  /-- Whether a whole number written so ends in a point and a zero. -/
  pointZero : Int → Bool

namespace NumberLayout

/-- Values never have an exponent, and whole numbers below ten to the sixteenth keep a zero after
the point. -/
def value : NumberLayout where
  positional _ := true
  pointZero power := power < 16

/-- Literals have an exponent from ten to the sixteenth on and below a ten-thousandth, and keep a
zero after the point otherwise. -/
def literal : NumberLayout where
  positional power := -4 ≤ power && power < 16
  pointZero _ := true

/-- A decimal without an exponent. -/
def writePositional (layout : NumberLayout) (digits : Digits) : List Char :=
  if digits.exponent < 0 then
    ['0', '.'] ++ List.replicate (-digits.exponent - 1).toNat '0' ++ digits.chars
  else
    let size := digits.exponent.toNat + 1
    let whole := digits.chars.take size
    let padding := List.replicate (size - whole.length) '0'
    let ending :=
      match digits.chars.drop size with
      | [] => if layout.pointZero digits.exponent then ['.', '0'] else []
      | fraction => '.' :: fraction
    whole ++ padding ++ ending

/-- A decimal with an exponent. -/
def writeExponent (digits : Digits) : List Char :=
  let mantissa :=
    match digits.chars with
    | first :: second :: rest => first :: '.' :: second :: rest
    | chars => chars
  mantissa ++ 'e' :: (toString digits.exponent).toList

/-- A decimal as the layout wants it. -/
def writeDigits (layout : NumberLayout) (digits : Digits) : String :=
  String.ofList <|
    if layout.positional digits.exponent then layout.writePositional digits
    else writeExponent digits

/-- A decoded number, by its shortest decimal. -/
def write (layout : NumberLayout) (format : BinaryFormat) : Decoded → String
  | .notANumber => "NaN"
  | .infinite negative => if negative then "-inf" else "inf"
  | .finite negative mantissa exponent =>
    (if negative then "-" else "") ++ layout.writeDigits (format.shortest mantissa exponent)

/-- A number of double width. -/
def writeFloat (layout : NumberLayout) (x : Float) : String := layout.write .double (.ofFloat x)

/-- A number of single width. -/
def writeFloat32 (layout : NumberLayout) (x : Float32) : String :=
  layout.write .single (.ofFloat32 x)

end NumberLayout

end TreeScript
