import Mathlib.Data.List.TakeWhile
import TreeScript.Lowering.Constant
import TreeScript.Proofs.Decimal.Overflow

/-!
# Which numerals have a finite value

A decimal has a finite double exactly if it is below the middle between the greatest double and
`2 ^ 1024`. The shortcuts on the way to its double change nothing about that: the decimals computed
from exact factors are far below this limit, and those sorted out by their number of digits are
either below one or beyond the limit.

A numeral is kept in the narrowest of four widths that takes it. Whatever a narrower width takes
has a finite double as well, so a numeral is taken by some width exactly when its double is finite.
-/

namespace TreeScript

open Float.Model (Format UnpackedFloat totalExponent)
open Float.Model.UnpackedFloat

/-! ### Doubles -/

/-- The bits of a double, as its format has them. -/
def doubleBits (x : Float) : BitVec Format.binary64.numBits := x.toModel.toBits.toBitVec

/-- The bits of a single, as its format has them. -/
def singleBits (x : Float32) : BitVec Format.binary32.numBits := x.toModel.toBits.toBitVec

/-- A double is finite below the top exponent. -/
theorem isFinite_ofFloat_iff {x : Float} :
    (Decoded.ofFloat x).IsFinite ↔ unpackExponent (doubleBits x) ≠ -1#_ := by
  rw [Decoded.ofFloat, BinaryFormat.isFinite_decode_iff, ne_eq, ne_eq, ← BitVec.toNat_inj,
    toNat_unpackExponent, toNat_ones]
  rfl

/-- So is a single. -/
theorem isFinite_ofFloat32_iff {x : Float32} :
    (Decoded.ofFloat32 x).IsFinite ↔ unpackExponent (singleBits x) ≠ -1#_ := by
  rw [Decoded.ofFloat32, BinaryFormat.isFinite_decode_iff, ne_eq, ne_eq, ← BitVec.toNat_inj,
    toNat_unpackExponent, toNat_ones]
  rfl

/-- A double is finite up to its top exponent. -/
theorem isFinite_pack_iff {x : UnpackedFloat} :
    (Decoded.ofFloat (.ofModel (.pack x))).IsFinite ↔ AtMost 971 x :=
  isFinite_ofFloat_iff.trans exponent_pack_ne_iff

/-- So is a single. -/
theorem isFinite_pack32_iff {x : UnpackedFloat} :
    (Decoded.ofFloat32 (.ofModel (.pack x))).IsFinite ↔ AtMost 104 x :=
  isFinite_ofFloat32_iff.trans exponent_pack_ne_iff

/-- The sign does not count. -/
theorem isFinite_neg_iff {x : Float} :
    (Decoded.ofFloat (-x)).IsFinite ↔ (Decoded.ofFloat x).IsFinite :=
  isFinite_pack_iff.trans
    (atMost_neg_iff.trans ((atMost_unpack_iff (by decide)).trans isFinite_ofFloat_iff.symm))

/-- Nor does it for a single. -/
theorem isFinite_neg32_iff {x : Float32} :
    (Decoded.ofFloat32 (-x)).IsFinite ↔ (Decoded.ofFloat32 x).IsFinite :=
  isFinite_pack32_iff.trans
    (atMost_neg_iff.trans ((atMost_unpack_iff (by decide)).trans isFinite_ofFloat32_iff.symm))

/-! ### Decimals -/

/-- The exact powers of ten are whole numbers below `2 ^ 74`. -/
theorem exponent_powerOfTen : ∀ x ∈ Float.exactlyRepresentablePowersOfTen,
    1023 ≤ (unpackExponent (doubleBits x)).toNat ∧
      (unpackExponent (doubleBits x)).toNat ≤ 1096 := by
  decide

/-- Integers are far from the top. -/
theorem exponent_toFloat (n : UInt64) : (unpackExponent (doubleBits n.toFloat)).toNat ≤ 1087 := by
  have hround {s : Sign} {m : Nat} (hm : m < 2 ^ 64) :
      AtMost 12 (UnpackedFloat.round Format.binary64 s m 0) :=
    atMost_round (by decide) (by decide) (by decide) (by decide) hm
  refine exponent_pack_le 12 (by decide) ?_
  simp only [UnpackedFloat.ofUInt64, UnpackedFloat.ofNat, UnpackedFloat.ofInt,
    UnpackedFloat.normalize]
  have hlt := n.toNat_lt
  split
  · exact hround (by omega)
  · trivial
  · exact hround (by omega)

/-- A product of a word and an exact power of ten is finite, and so is their quotient. -/
theorem isFinite_scaled (n : UInt64) {power : Float}
    (hpower : power ∈ Float.exactlyRepresentablePowersOfTen) :
    (Decoded.ofFloat (n.toFloat * power)).IsFinite ∧
      (Decoded.ofFloat (n.toFloat / power)).IsFinite := by
  obtain ⟨hlow, hhigh⟩ := exponent_powerOfTen power hpower
  have hn := exponent_toFloat n
  have hnfinite : unpackExponent (doubleBits n.toFloat) ≠ -1#_ := by
    intro h
    rw [h] at hn
    exact absurd hn (by decide)
  have hfinite : unpackExponent (doubleBits power) ≠ -1#_ := by
    intro h
    rw [h] at hhigh
    exact absurd hhigh (by decide)
  obtain ⟨s₂, m₂, e₂, hm₂, hx₂, hlt₂, hle₂, he₂⟩ := unpack_of_normal hfinite (by omega)
  change m₂ < 2 ^ 53 at hlt₂
  change 2 ^ 52 ≤ m₂ at hle₂
  change e₂ = _ - ((1023 : Nat) + (52 : Nat) : Int) at he₂
  suffices h : AtMost 971 (UnpackedFloat.mul Format.binary64
      (UnpackedFloat.unpack _ (doubleBits n.toFloat)) (UnpackedFloat.unpack _ (doubleBits power))) ∧
      AtMost 971 (UnpackedFloat.div Format.binary64
        (UnpackedFloat.unpack _ (doubleBits n.toFloat)) (UnpackedFloat.unpack _ (doubleBits power)))
    from ⟨isFinite_pack_iff.mpr h.1, isFinite_pack_iff.mpr h.2⟩
  rw [hx₂]
  rcases unpack_of_finite hnfinite with ⟨s₁, hx₁⟩ | ⟨s₁, m₁, e₁, hm₁, hx₁, hlt₁, he₁⟩
  · rw [hx₁]
    exact ⟨trivial, trivial⟩
  · change m₁ < 2 ^ 53 at hlt₁
    change e₁ ≤ max 1 _ - ((1023 : Nat) + (52 : Nat) : Int) at he₁
    rw [hx₁, div_finite]
    constructor
    · have hproduct : m₁ * m₂ < 2 ^ 106 := by
        calc m₁ * m₂ < 2 ^ 53 * 2 ^ 53 := Nat.mul_lt_mul'' hlt₁ hlt₂
          _ = 2 ^ 106 := by decide
      have htotal := totalExponent_le (e₁ + e₂) (by decide) hproduct
      refine atMost_roundWithAccuracy (by decide) (by omega) ?_
      change _ - ((53 : Nat) : Int) < 971
      omega
    · obtain ⟨hexponent, htotal⟩ :=
        divCore_le Format.binary64 e₁ e₂ (Nat.le_refl 1) (show m₁ < 2 ^ 1 * m₂ by omega)
      refine atMost_roundWithAccuracy (by decide) (by omega) ?_
      change _ - ((53 : Nat) : Int) < 971
      omega

/-- An exponent is its sign and magnitude. -/
theorem ofSign_natAbs (exponent : Int) :
    (if decide (exponent < 0) then Int.negOfNat exponent.natAbs
      else Int.ofNat exponent.natAbs) = exponent := by
  simp only [decide_eq_true_eq, Int.negOfNat_eq, Int.ofNat_eq_natCast]
  split <;> omega

/-- The decimals that are computed from exact factors are below every limit. -/
theorem scaled_lt {m limit : Nat} {exponent : Int} (hm : m < 2 ^ 53)
    (hexponent : exponent.natAbs ≤ 22) (hlimit : 2 ^ 53 * 10 ^ 22 ≤ limit) :
    m * 10 ^ exponent.toNat < limit * 10 ^ (-exponent).toNat := by
  have hpos : 0 < 10 ^ (-exponent).toNat := Nat.pow_pos (by decide)
  calc m * 10 ^ exponent.toNat ≤ m * 10 ^ 22 :=
        Nat.mul_le_mul_left _ (Nat.pow_le_pow_right (by decide) (by omega))
    _ < 2 ^ 53 * 10 ^ 22 := Nat.mul_lt_mul_of_pos_right hm (by decide)
    _ ≤ limit := hlimit
    _ ≤ limit * 10 ^ (-exponent).toNat := Nat.le_mul_of_pos_right _ hpos

/-- A decimal has a finite double exactly if it is below the limit of the doubles. -/
theorem isFinite_ofScientific_iff {m : Nat} {exponent : Int} :
    (Decoded.ofFloat (Float.ofScientific m (exponent < 0) exponent.natAbs)).IsFinite ↔
      m * 10 ^ exponent.toNat < overflowLimit .binary64 * 10 ^ (-exponent).toNat := by
  simp only [Float.ofScientific]
  split
  · rename_i hsmall
    refine iff_of_true ?_ (scaled_lt hsmall.1 hsmall.2 (by decide +kernel))
    have hlt : exponent.natAbs < Float.exactlyRepresentablePowersOfTen.size :=
      Nat.lt_succ_of_le hsmall.2
    obtain ⟨hmul, hdiv⟩ := isFinite_scaled m.toUInt64 (Array.getElem_mem hlt)
    split
    · exact hdiv
    · exact hmul
  · rw [ofSign_natAbs]
    exact isFinite_pack_iff.trans (atMost_topExponent_iff (by decide) (by decide) (by decide))

/-- A decimal that has a finite single is below the limit of the singles. -/
theorem lt_of_isFinite_ofScientific32 {m : Nat} {exponent : Int}
    (h : (Decoded.ofFloat32 (Float32.ofScientific m (exponent < 0) exponent.natAbs)).IsFinite) :
    m * 10 ^ exponent.toNat < overflowLimit .binary32 * 10 ^ (-exponent).toNat := by
  simp only [Float32.ofScientific] at h
  split at h
  · rename_i hsmall
    exact scaled_lt (Nat.lt_trans hsmall.1 (by decide)) (Nat.le_trans hsmall.2 (by decide))
      (by decide +kernel)
  · rw [ofSign_natAbs] at h
    exact (atMost_topExponent_iff (by decide) (by decide) (by decide)).mp (isFinite_pack32_iff.mp h)

namespace Decimal

variable {decimal : Decimal} {limit : Nat}

/-- Whether a decimal's magnitude is below a limit. -/
def Below (limit : Nat) (decimal : Decimal) : Prop :=
  decimal.digits * 10 ^ decimal.exponent.toNat < limit * 10 ^ (-decimal.exponent).toNat

instance (limit : Nat) (decimal : Decimal) : Decidable (decimal.Below limit) :=
  inferInstanceAs (Decidable (_ < _))

/-- What is below a limit is below a greater one. -/
theorem Below.mono {greater : Nat} (h : decimal.Below limit) (hle : limit ≤ greater) :
    decimal.Below greater :=
  Nat.lt_of_lt_of_le h (Nat.mul_le_mul_right _ hle)

/-- What is sorted out as zero is below one. -/
theorem below_of_reach_zero (h : decimal.reach = .zero) : decimal.Below 1 := by
  have hlength : decimal.digits < 10 ^ (Nat.toDigits 10 decimal.digits).length :=
    (Nat.length_toDigits_le_iff (by decide) Nat.length_toDigits_pos).mp (Nat.le_refl _)
  simp only [reach, Bool.or_eq_true, decide_eq_true_eq] at h
  rw [Below, Nat.one_mul]
  split at h
  · rename_i hzero
    rcases hzero with hzero | hsize
    · rw [hzero, Nat.zero_mul]
      exact Nat.pow_pos (by decide)
    · have hpos : decimal.exponent.toNat = 0 := by omega
      rw [hpos, Nat.pow_zero, Nat.mul_one]
      exact Nat.lt_of_lt_of_le hlength (Nat.pow_le_pow_right (by decide) (by omega))
  · split at h <;> cases h

/-- What is sorted out as infinite is beyond every limit up to `10 ^ 400`. -/
theorem not_below_of_reach_infinite {width : Nat} (hwidth : width ≤ 400)
    (hlimit : limit ≤ 10 ^ width) (h : decimal.reach = .infinite) : ¬ decimal.Below limit := by
  simp only [reach, Bool.or_eq_true, decide_eq_true_eq] at h
  split at h
  · cases h
  rename_i hsmall
  split at h
  · rename_i hsize
    generalize hlength : (Nat.toDigits 10 decimal.digits).length = length at hsize
    have hdigits : 10 ^ (length - 1) ≤ decimal.digits := by
      by_contra hless
      rw [Nat.not_le] at hless
      by_cases hone : length = 1
      · rw [hone, Nat.sub_self, Nat.pow_zero] at hless
        exact hsmall (.inl (by omega))
      · have hpos : 0 < (Nat.toDigits 10 decimal.digits).length := Nat.length_toDigits_pos
        have hshorter := (Nat.length_toDigits_le_iff (by decide) (by omega)).mpr hless
        omega
    rw [Below, Nat.not_lt]
    calc limit * 10 ^ (-decimal.exponent).toNat
        ≤ 10 ^ width * 10 ^ (-decimal.exponent).toNat := Nat.mul_le_mul_right _ hlimit
      _ = 10 ^ (width + (-decimal.exponent).toNat) := (Nat.pow_add _ _ _).symm
      _ ≤ 10 ^ (length - 1 + decimal.exponent.toNat) :=
          Nat.pow_le_pow_right (by decide) (by omega)
      _ = 10 ^ (length - 1) * 10 ^ decimal.exponent.toNat := Nat.pow_add _ _ _
      _ ≤ decimal.digits * 10 ^ decimal.exponent.toNat := Nat.mul_le_mul_right _ hdigits
  · cases h

/-- A decimal has a finite double exactly if it is below the limit of the doubles. -/
theorem isFinite_toFloat_iff :
    (Decoded.ofFloat decimal.toFloat).IsFinite ↔ decimal.Below (overflowLimit .binary64) := by
  have hsign {magnitude : Float} :
      (Decoded.ofFloat (if decimal.negative then -magnitude else magnitude)).IsFinite ↔
        (Decoded.ofFloat magnitude).IsFinite := by
    split
    · exact isFinite_neg_iff
    · exact Iff.rfl
  rw [toFloat, hsign]
  cases hreach : decimal.reach with
  | zero =>
    have hzero : (Decoded.ofFloat 0).IsFinite := isFinite_ofFloat_iff.mpr (by decide)
    exact iff_of_true hzero ((below_of_reach_zero hreach).mono (by decide +kernel))
  | infinite =>
    have hinfinite : ¬ (Decoded.ofFloat (1 / 0)).IsFinite := by
      rw [isFinite_ofFloat_iff]
      decide
    exact iff_of_false hinfinite
      (not_below_of_reach_infinite (Nat.le_refl _) (by decide +kernel) hreach)
  | ordinary => exact isFinite_ofScientific_iff

/-- A decimal that has a finite single is below the limit of the singles. -/
theorem below_of_isFinite_toFloat32 (h : (Decoded.ofFloat32 decimal.toFloat32).IsFinite) :
    decimal.Below (overflowLimit .binary32) := by
  have hmagnitude {magnitude : Float32}
      (h : (Decoded.ofFloat32 (if decimal.negative then -magnitude else magnitude)).IsFinite) :
      (Decoded.ofFloat32 magnitude).IsFinite := by
    split at h
    · exact isFinite_neg32_iff.mp h
    · exact h
  rw [toFloat32] at h
  replace h := hmagnitude h
  cases hreach : decimal.reach with
  | zero => exact (below_of_reach_zero hreach).mono (by decide +kernel)
  | infinite =>
    have hinfinite : ¬ (Decoded.ofFloat32 (1 / 0)).IsFinite := by
      rw [isFinite_ofFloat32_iff]
      decide
    rw [hreach] at h
    exact absurd h hinfinite
  | ordinary =>
    rw [hreach] at h
    exact lt_of_isFinite_ofScientific32 h

/-- Where the single is finite, so is the double. -/
theorem isFinite_toFloat_of_toFloat32 (h : (Decoded.ofFloat32 decimal.toFloat32).IsFinite) :
    (Decoded.ofFloat decimal.toFloat).IsFinite :=
  isFinite_toFloat_iff.mpr ((below_of_isFinite_toFloat32 h).mono (by decide +kernel))

/-- An integer that fits into 64 bits has a finite double. -/
theorem isFinite_toFloat_of_integer (hexponent : decimal.exponent = 0)
    (h : decimal.digits ≤ 2 ^ 63) : (Decoded.ofFloat decimal.toFloat).IsFinite := by
  refine isFinite_toFloat_iff.mpr (Below.mono ?_ (show 2 ^ 63 + 1 ≤ _ by decide +kernel))
  simp only [Below, hexponent, Int.neg_zero, Int.toNat_zero, Nat.pow_zero, Nat.mul_one]
  omega

/-- A text that reads as an integer reads as the decimal without fraction and exponent. -/
theorem read?_of_readInteger? {text : String} {value : Int} (h : readInteger? text = some value) :
    read? text = some ⟨(splitSign text.toList).1, value.natAbs, 0⟩ := by
  simp only [readInteger?] at h
  split at h
  · rename_i hdigits
    rw [Bool.and_eq_true, Bool.not_eq_true', List.all_eq_true] at hdigits
    have hwhole : (splitSign text.toList).2.takeWhile Char.isDigit = (splitSign text.toList).2 :=
      List.takeWhile_eq_self_iff.mpr hdigits.2
    have hrest : (splitSign text.toList).2.dropWhile Char.isDigit = [] :=
      List.dropWhile_eq_nil_iff.mpr hdigits.2
    have hvalue : value.natAbs = ofDigits (splitSign text.toList).2 := by
      cases h
      split <;> omega
    simp [read?, hwhole, hrest, splitFraction, readExponent?, hdigits.1, hvalue]
  · cases h

/-- A text that reads as such an integer reads as a decimal with a finite double. -/
theorem isFinite_toFloat_of_readInteger? {text : String} {value : Int}
    (hread : read? text = some decimal) (h : readInteger? text = some value)
    (hlow : -2 ^ 63 ≤ value) (hhigh : value ≤ 2 ^ 63) :
    (Decoded.ofFloat decimal.toFloat).IsFinite := by
  rw [read?_of_readInteger? h] at hread
  cases hread
  exact isFinite_toFloat_of_integer rfl (show value.natAbs ≤ 2 ^ 63 by omega)

end Decimal

namespace Literal

/-- A match for finite numbers tells them. -/
theorem matches_finite_iff {decoded : Decoded} :
    (decoded matches .finite _ _ _) = true ↔ decoded.IsFinite := by
  cases decoded <;> simp [Decoded.IsFinite]

section

variable {text : String} {decimal : Decimal} {literal : Literal}

/-- Of the integers without a sign, the narrow width takes those below `2 ^ 31`. -/
theorem readInt?_of_readInteger? {value : Nat}
    (h : Decimal.readInteger? text = some (value : Int)) :
    readInt? text = if value < 2 ^ 31 then some (.int (.ofNat value)) else none := by
  have hbounds : Int32.minValue.toInt = -2 ^ 31 ∧ Int32.maxValue.toInt = 2 ^ 31 - 1 := by decide
  have hrange : (-2 ^ 31 : Int) ≤ value ∧ (value : Int) ≤ 2 ^ 31 - 1 ↔ value < 2 ^ 31 := by omega
  simp only [readInt?, h, hbounds, hrange, Option.bind_eq_bind, Option.bind_some,
    Int32.ofInt_eq_ofNat]

/-- Of the integers without a sign, the wide width takes those below `2 ^ 63`. -/
theorem readLong?_of_readInteger? {value : Nat}
    (h : Decimal.readInteger? text = some (value : Int)) :
    readLong? text = if value < 2 ^ 63 then some (.long (.ofNat value)) else none := by
  have hbounds : Int64.minValue.toInt = -2 ^ 63 ∧ Int64.maxValue.toInt = 2 ^ 63 - 1 := by decide
  have hrange : (-2 ^ 63 : Int) ≤ value ∧ (value : Int) ≤ 2 ^ 63 - 1 ↔ value < 2 ^ 63 := by omega
  simp only [readLong?, h, hbounds, hrange, Option.bind_eq_bind, Option.bind_some,
    Int64.ofInt_eq_ofNat]

/-- An integer within bounds that 64 bits hold has a finite double, whatever literal it becomes. -/
theorem isFinite_of_bounded {low high : Int} {make : Int → Literal}
    (hread : Decimal.read? text = some decimal)
    (h : ((Decimal.readInteger? text).bind fun value =>
      if low ≤ value ∧ value ≤ high then some (make value) else none) = some literal)
    (hlow : -2 ^ 63 ≤ low) (hhigh : high ≤ 2 ^ 63) :
    (Decoded.ofFloat decimal.toFloat).IsFinite := by
  obtain ⟨value, hvalue, h⟩ := Option.bind_eq_some_iff.mp h
  obtain ⟨hrange, -⟩ := Option.ite_none_right_eq_some.mp h
  exact Decimal.isFinite_toFloat_of_readInteger? hread hvalue (by omega) (by omega)

/-- What is read as an integer is finite. -/
theorem isFinite_of_readInt? (hread : Decimal.read? text = some decimal)
    (h : readInt? text = some literal) : (Decoded.ofFloat decimal.toFloat).IsFinite :=
  isFinite_of_bounded hread h (by decide) (by decide)

/-- So is what is read as a long integer. -/
theorem isFinite_of_readLong? (hread : Decimal.read? text = some decimal)
    (h : readLong? text = some literal) : (Decoded.ofFloat decimal.toFloat).IsFinite :=
  isFinite_of_bounded hread h (by decide) (by decide)

/-- So is what is read as a single. -/
theorem isFinite_of_readFloat? (hread : Decimal.read? text = some decimal)
    (h : readFloat? text = some literal) : (Decoded.ofFloat decimal.toFloat).IsFinite := by
  simp only [readFloat?, hread] at h
  obtain ⟨hfinite, -⟩ := Option.ite_none_right_eq_some.mp h
  exact Decimal.isFinite_toFloat_of_toFloat32 (matches_finite_iff.mp hfinite)

/-- A double is read if it is finite. -/
theorem isSome_readDouble?_iff (hread : Decimal.read? text = some decimal) :
    (readDouble? text).isSome ↔ (Decoded.ofFloat decimal.toFloat).IsFinite := by
  rw [← matches_finite_iff, readDouble?, hread]
  exact Option.isSome_ite

/-- A numeral is taken by some width exactly when its double is finite. -/
theorem isSome_readNumber?_iff (hread : Decimal.read? text = some decimal) :
    (readNumber? text).isSome ↔ (Decoded.ofFloat decimal.toFloat).IsFinite := by
  rw [← isSome_readDouble?_iff hread, readNumber?]
  cases hint : readInt? text with
  | some literal =>
    have hfinite := isFinite_of_readInt? hread hint
    exact ⟨fun _ => (isSome_readDouble?_iff hread).mpr hfinite, fun _ => rfl⟩
  | none =>
    cases hlong : readLong? text with
    | some literal =>
      have hfinite := isFinite_of_readLong? hread hlong
      exact ⟨fun _ => (isSome_readDouble?_iff hread).mpr hfinite, fun _ => rfl⟩
    | none =>
      cases hfloat : readFloat? text with
      | some literal =>
        have hfinite := isFinite_of_readFloat? hread hfloat
        exact ⟨fun _ => (isSome_readDouble?_iff hread).mpr hfinite, fun _ => rfl⟩
      | none => exact Iff.rfl

end

end Literal

end TreeScript
