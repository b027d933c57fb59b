/-!
# Binary floating-point formats

The bits of a floating-point number hold a sign, a biased exponent and a fraction. Decoding
turns them into an integer times a power of two, or tells that the number is not finite.
-/

namespace TreeScript

/-- The widths of a format's fields. -/
structure BinaryFormat where
  fractionBits : Nat
  exponentBits : Nat
deriving DecidableEq, Repr

/-- What a bit pattern stands for. -/
inductive Decoded where
  | notANumber
  | infinite (negative : Bool)
  /-- The number `mantissa * 2 ^ exponent`, negated if `negative`. -/
  | finite (negative : Bool) (mantissa : Nat) (exponent : Int)
deriving DecidableEq, Repr

namespace BinaryFormat

/-- The format of `Float32`. -/
def single : BinaryFormat := ⟨23, 8⟩

/-- The format of `Float`. -/
def double : BinaryFormat := ⟨52, 11⟩

/-- What is added to an exponent so that it can be stored without a sign. -/
def bias (format : BinaryFormat) : Nat := Nat.pow 2 (format.exponentBits - 1) - 1

/-- The exponent of the smallest numbers. -/
def leastExponent (format : BinaryFormat) : Int := 1 - format.bias - format.fractionBits

/-- Decode a bit pattern. -/
def decode (format : BinaryFormat) (bits : Nat) : Decoded :=
  let fraction := bits % Nat.pow 2 format.fractionBits
  let stored := bits / Nat.pow 2 format.fractionBits % Nat.pow 2 format.exponentBits
  let negative := bits / Nat.pow 2 (format.fractionBits + format.exponentBits) % 2 == 1
  if stored = Nat.pow 2 format.exponentBits - 1 then
    if fraction = 0 then .infinite negative else .notANumber
  else if stored = 0 then .finite negative fraction format.leastExponent
  else
    .finite negative (Nat.pow 2 format.fractionBits + fraction) (format.leastExponent + stored - 1)

end BinaryFormat

/-- Decode a number of double width. -/
def Decoded.ofFloat (x : Float) : Decoded := BinaryFormat.double.decode x.toBits.toNat

/-- Decode a number of single width. -/
def Decoded.ofFloat32 (x : Float32) : Decoded := BinaryFormat.single.decode x.toBits.toNat

end TreeScript
