import TreeScript.Fault
import TreeScript.Value.Compare
import TreeScript.Value.Remainder

/-!
# Arithmetic

Two integers are divided to an integer where that is exact and in range, and to a floating-point
number otherwise; the same holds of powers. As soon as one operand is a floating-point number the
other is widened. Bits are combined of integers only.
-/

namespace TreeScript

namespace Value

/-- Combine two numbers: two integers as integers, others as floating-point numbers. -/
def arithmetic (operator : BinaryOperator) (onInts : Int64 → Int64 → Except Fault Value)
    (onFloats : Float → Float → Float) (left right : Value) : Except Fault Value :=
  match left, right with
  | int a, int b => onInts a b
  | left, right =>
    match left.toFloat?, right.toFloat? with
    | some a, some b => return float (onFloats a b)
    | _, _ => throw (.operands operator left.type right.type)

/-- Whether an exact integer lies in the range of integer values. -/
def inRange (n : Int) : Bool := Int64.minValue.toInt ≤ n && n ≤ Int64.maxValue.toInt

/-- The remainder of a division truncated towards zero, unless the divisor is zero or the quotient
is out of range. -/
def checkedRemainder? (a b : Int64) : Option Int64 :=
  if b = 0 || !inRange (a.toInt.tdiv b.toInt) then none else some (a % b)

/-- Divide integers. -/
def divideInts (a b : Int64) : Except Fault Value :=
  if b = 0 then throw .divisionByZero
  else if checkedRemainder? a b = some 0 then return int (a / b)
  else return float (widen a / widen b)

/-- The remainder of integers, with the sign of the dividend. -/
def remainderOfInts (a b : Int64) : Except Fault Value :=
  if b = 0 then throw .remainderByZero else return int (a % b)

/-- The power of an integer, if it lies in the range of integer values. The exponents from
sixty-four on are looked at only for bases that stay small. -/
def exactPower? (base : Int) (exponent : Nat) : Option Int64 :=
  if base.natAbs ≤ 1 then
    some (Int64.ofInt (if exponent = 0 || (base = -1 && exponent % 2 = 0) then 1 else base))
  else if exponent < 64 && inRange (Int.pow base exponent) then
    some (Int64.ofInt (Int.pow base exponent))
  else none

/-- Raise an integer to a power: exactly if the exponent has at most thirty-two bits and the power
lies in the range of integer values, and as floating-point numbers otherwise. -/
def powerOfInts (base exponent : Int64) : Value :=
  let exact :=
    if 0 ≤ exponent.toInt ∧ exponent.toInt < 4294967296 then
      exactPower? base.toInt exponent.toInt.toNat
    else none
  match exact with
  | some power => int power
  | none => float ((widen base).pow (widen exponent))

/-- Combine the bits of two integers. -/
def bitwise (operator : BinaryOperator) (onInts : Int64 → Int64 → Int64) (left right : Value) :
    Except Fault Value :=
  match left, right with
  | int a, int b => return int (onInts a b)
  | left, right => throw (.operands operator left.type right.type)

/-- Test the order of two values; without an order the test fails. -/
def ordered (operator : BinaryOperator) (test : Ordering → Bool) (left right : Value) :
    Except Fault Value :=
  if left.isComparable right then return bool ((left.compare? right).any test)
  else throw (.operands operator left.type right.type)

/-- Apply an operator in front of one operand. -/
def applyUnary (operator : UnaryOperator) (operand : Value) : Except Fault Value :=
  match operator, operand with
  | .negate, int value => return int (-value)
  | .negate, float value => return float (-value)
  | .plus, int value => return int value
  | .plus, float value => return float value
  | .invert, value => return bool !value.isTruthy
  | .bitInvert, int value => return int (~~~value)
  | operator, value => throw (.operand operator value.type)

end Value

end TreeScript
