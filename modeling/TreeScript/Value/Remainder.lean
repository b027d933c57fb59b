import TreeScript.Decimal.Binary

/-!
# Remainders of floating-point numbers

The remainder of a division truncated towards zero. It is computed exactly: both numbers are
brought to a common power of two, where the remainder is that of two integers. The result needs
no rounding, since it is a multiple of that power and smaller than one of the two mantissas.
-/

namespace TreeScript

/-- A power of two as a floating-point number, for exponents from -1074 up to 1023. -/
def powerOfTwo (exponent : Int) : Float :=
  if -1022 ≤ exponent then Float.ofBits (UInt64.ofNat ((exponent + 1023).toNat * Nat.pow 2 52))
  else Float.ofBits (UInt64.ofNat (Nat.pow 2 (exponent + 1074).toNat))

/-- The remainder of two magnitudes, each a mantissa times a power of two. -/
def remainderOfMagnitudes (mantissa : Nat) (exponent : Int) (mantissa' : Nat) (exponent' : Int) :
    Float :=
  let common := if exponent ≤ exponent' then exponent else exponent'
  let dividend := mantissa * Nat.pow 2 (exponent - common).toNat
  let divisor := mantissa' * Nat.pow 2 (exponent' - common).toNat
  Float.ofNat (dividend % divisor) * powerOfTwo common

/-- The remainder of a division truncated towards zero, with the sign of the dividend. It is NaN
for an infinite dividend and for a divisor of zero. -/
def floatRemainder (x y : Float) : Float :=
  match Decoded.ofFloat x, Decoded.ofFloat y with
  | .finite negative mantissa exponent, .finite _ mantissa' exponent' =>
    if mantissa' = 0 then 0 / 0
    else
      let magnitude := remainderOfMagnitudes mantissa exponent mantissa' exponent'
      if negative then -magnitude else magnitude
  | .finite _ _ _, .infinite _ => x
  | _, _ => 0 / 0

end TreeScript
