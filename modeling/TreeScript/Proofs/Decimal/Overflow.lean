import Mathlib.Tactic.Ring
import TreeScript.Proofs.Decimal.Rounding

/-!
# Where rounding overflows

A number is rounded to nearest, ties to even, so it stays finite exactly if it lies below the middle
between the largest number of the format and the next power of two; the middle itself goes to the
power of two, whose mantissa is even. In units of half the last place, this middle is one less than
a power of two, and a number counts with as many whole halves as it holds. Shifting a mantissa
divides that count, whatever was dropped before, so one inequality on it decides.
-/

namespace TreeScript

open Float.Model (Format UnpackedFloat totalExponent)
open Float.Model.UnpackedFloat

/-! ### Halves of the last place -/

/-- The whole halves of the last place that an extended mantissa holds. -/
def halves (em : ExtendedMantissa) : Nat := 2 * em.mantissa + em.roundBit.toNat

/-- One more half, if what was dropped is at least that much. -/
def droppedHalves : Accuracy → Nat
  | .exact | .inexact .lt => 0
  | .inexact .eq | .inexact .gt => 1

/-- The halves of a mantissa with what was dropped. -/
theorem halves_ofMantissaAndAccuracy (mantissa : Nat) (accuracy : Accuracy) :
    halves (ExtendedMantissa.ofMantissaAndAccuracy mantissa accuracy) =
      2 * mantissa + droppedHalves accuracy := by
  fun_cases ExtendedMantissa.ofMantissaAndAccuracy <;> rfl

/-- A shift by one halves them. -/
theorem halves_shiftRightOne (em : ExtendedMantissa) :
    halves em.shiftRightOne = halves em / 2 := by
  have hbit : (em.mantissa % 2 != 0).toNat = em.mantissa % 2 := by
    rcases Nat.mod_two_eq_zero_or_one em.mantissa with h | h <;> rw [h] <;> rfl
  have hround := Bool.toNat_le em.roundBit
  simp only [halves, ExtendedMantissa.shiftRightOne, hbit]
  omega

/-- A shift divides them. -/
theorem halves_shiftRight (em : ExtendedMantissa) (count : Nat) :
    halves (em >>> count) = halves em / 2 ^ count := by
  induction count with
  | zero => simp [HShiftRight.hShiftRight, Nat.repeat]
  | succ count ih =>
    change halves (em >>> count).shiftRightOne = _
    rw [halves_shiftRightOne, ih, Nat.div_div_eq_div_mul, Nat.pow_succ]

/-- A mantissa that fills the format is rounded up beyond it from half of the last place on. -/
theorem roundedMantissa_lt_iff {em : ExtendedMantissa} {bits : Nat} (hbits : 1 ≤ bits)
    (h : em.mantissa < 2 ^ bits) :
    em.roundedMantissa < 2 ^ bits ↔ halves em < 2 ^ (bits + 1) - 1 := by
  have heven : 2 ^ bits = 2 * 2 ^ (bits - 1) := by
    rw [← Nat.pow_succ']
    congr
    omega
  rw [Nat.pow_succ]
  obtain ⟨mantissa, roundBit, stickyBit⟩ := em
  cases roundBit <;> cases stickyBit <;>
    simp only [ExtendedMantissa.roundedMantissa, ExtendedMantissa.accuracy,
      Accuracy.roundToNearestEven, halves, Bool.toNat_true, Bool.toNat_false] at h ⊢ <;>
    omega

section Round

variable {spec : Format} {sign : Sign} {mantissa : Nat} {exponent top : Int} {accuracy : Accuracy}

/-- The halves that are left at the target. -/
theorem halves_shiftToTargetExponent :
    halves (shiftToTargetExponent spec mantissa exponent accuracy).1 =
      (2 * mantissa + droppedHalves accuracy) /
        2 ^ (spec.targetExponent (totalExponent mantissa exponent) - exponent).toNat := by
  simp only [shiftToTargetExponent, shiftToExponent]
  rw [halves_shiftRight, halves_ofMantissaAndAccuracy]

/-- A mantissa keeps an exponent exactly if it fits into the format. -/
theorem shiftToTargetExponent_snd_le_iff (hmin : spec.minExponent < top) :
    (shiftToTargetExponent spec mantissa top .exact).2 ≤ top ↔
      mantissa < 2 ^ spec.mantissaBits := by
  rw [shiftToTargetExponent_snd, Format.targetExponent]
  constructor
  · intro h
    by_contra hlarge
    have htotal := lt_totalExponent top (Nat.not_lt.mp hlarge)
    omega
  · intro h
    have htotal := totalExponent_le top (mantissaBits_pos spec) h
    omega

/-- A number whose leading bit puts it at the top exponent stays there unless its mantissa is
rounded up beyond the format. -/
theorem atMost_roundWithAccuracy_iff_of_eq (hmin : spec.minExponent < top)
    (hexponent : exponent < top)
    (htotal : totalExponent mantissa exponent - spec.mantissaBits = top) :
    AtMost top (roundWithAccuracy spec sign mantissa exponent accuracy) ↔
      2 * mantissa + droppedHalves accuracy <
        (2 ^ (spec.mantissaBits + 1) - 1) * 2 ^ (top - exponent).toNat := by
  let first := shiftToTargetExponent spec mantissa exponent accuracy
  have hbits := mantissaBits_pos spec
  have htarget : spec.targetExponent (totalExponent mantissa exponent) = top := by
    rw [Format.targetExponent]
    omega
  have hfirst : first.2 = top := by
    rw [shiftToTargetExponent_snd, htarget]
    omega
  have hhalves : halves first.1 < 2 ^ (spec.mantissaBits + 1) - 1 ↔
      2 * mantissa + droppedHalves accuracy <
        (2 ^ (spec.mantissaBits + 1) - 1) * 2 ^ (top - exponent).toNat := by
    rw [halves_shiftToTargetExponent, htarget, Nat.div_lt_iff_lt_mul (Nat.two_pow_pos _)]
  rw [← hhalves, ← roundedMantissa_lt_iff hbits shiftToTargetExponent_lt]
  let second := shiftToTargetExponent spec first.1.roundedMantissa first.2 .exact
  have hsecond : second.2 ≤ top ↔ first.1.roundedMantissa < 2 ^ spec.mantissaBits := by
    simp only [second, hfirst]
    exact shiftToTargetExponent_snd_le_iff hmin
  rw [← hsecond]
  constructor
  · intro h
    by_contra hbeyond
    have hlarge : 2 ^ spec.mantissaBits ≤ first.1.roundedMantissa :=
      Nat.not_lt.mp (mt hsecond.mpr hbeyond)
    have hkept : 0 < second.1.mantissa := by
      have hleading := lt_totalExponent first.2 hlarge
      exact shiftToTargetExponent_pos (Nat.lt_of_lt_of_le (Nat.two_pow_pos _) hlarge) (by omega)
    exact not_atMost_iff.mpr (beyond_of_shiftedAgain hkept (Int.not_le.mp hbeyond)) h
  · exact atMost_of_shiftedAgain

/-- Rounding keeps a number within an exponent exactly if its halves of the last place there are
fewer than those of the middle to the next power of two. -/
theorem atMost_roundWithAccuracy_iff (hmin : spec.minExponent < top) (hexponent : exponent < top) :
    AtMost top (roundWithAccuracy spec sign mantissa exponent accuracy) ↔
      2 * mantissa + droppedHalves accuracy <
        (2 ^ (spec.mantissaBits + 1) - 1) * 2 ^ (top - exponent).toNat := by
  have hdropped : droppedHalves accuracy ≤ 1 := by
    fun_cases droppedHalves accuracy <;> decide
  have hscale (bits : Nat) : 2 ^ (bits + (top - exponent).toNat) =
      2 ^ bits * 2 ^ (top - exponent).toNat := Nat.pow_add _ _ _
  have hbits : 2 ^ (spec.mantissaBits + 1) = 2 * 2 ^ spec.mantissaBits := Nat.pow_succ'
  have hpow := Nat.two_pow_pos spec.mantissaBits
  rcases Int.lt_trichotomy (totalExponent mantissa exponent - spec.mantissaBits) top with
    hlt | heq | hgt
  · refine iff_of_true (atMost_roundWithAccuracy hmin hexponent hlt) ?_
    rw [totalExponent] at hlt
    calc 2 * mantissa + droppedHalves accuracy < 2 * 2 ^ (mantissa.log2 + 1) := by
          have := @Nat.lt_log2_self mantissa
          omega
      _ = 2 ^ (mantissa.log2 + 1 + 1) := Nat.pow_succ'.symm
      _ ≤ 2 ^ (spec.mantissaBits + (top - exponent).toNat) :=
          Nat.pow_le_pow_right (by decide) (by omega)
      _ = 2 ^ spec.mantissaBits * 2 ^ (top - exponent).toNat := hscale _
      _ ≤ (2 ^ (spec.mantissaBits + 1) - 1) * 2 ^ (top - exponent).toNat :=
          Nat.mul_le_mul_right _ (by omega)
  · exact atMost_roundWithAccuracy_iff_of_eq hmin hexponent heq
  · have hpos : 0 < mantissa := by
      rw [Nat.pos_iff_ne_zero]
      rintro rfl
      have hwidth := mantissaBits_pos spec
      rw [totalExponent, Nat.log2_zero] at hgt
      omega
    refine iff_of_false (not_atMost_iff.mpr (beyond_roundWithAccuracy hmin.le hpos hgt)) ?_
    rw [totalExponent] at hgt
    rw [Nat.not_lt]
    calc (2 ^ (spec.mantissaBits + 1) - 1) * 2 ^ (top - exponent).toNat
        ≤ 2 ^ (spec.mantissaBits + 1) * 2 ^ (top - exponent).toNat :=
          Nat.mul_le_mul_right _ (Nat.sub_le _ _)
      _ = 2 ^ (spec.mantissaBits + 1 + (top - exponent).toNat) := (hscale _).symm
      _ ≤ 2 ^ (mantissa.log2 + 1) := Nat.pow_le_pow_right (by decide) (by omega)
      _ = 2 * 2 ^ mantissa.log2 := Nat.pow_succ'
      _ ≤ 2 * mantissa := Nat.mul_le_mul_left 2 (Nat.log2_self_le hpos.ne')
      _ ≤ 2 * mantissa + droppedHalves accuracy := Nat.le_add_right _ _

end Round

/-! ### Decimals -/

/-- A quotient holds as many halves as there are in twice the dividend. -/
theorem halves_of_fraction (dividend : Nat) {divisor : Nat} (h : 0 < divisor) :
    2 * (dividend / divisor) + droppedHalves (accuracyOfFraction (dividend % divisor) divisor) =
      2 * dividend / divisor := by
  have hparts := Nat.div_add_mod dividend divisor
  have hlt := Nat.mod_lt dividend h
  generalize dividend / divisor = quotient at *
  generalize dividend % divisor = rest at *
  have htwice : 2 * dividend = 2 * rest + divisor * (2 * quotient) := by
    rw [← hparts]
    ring
  have hhalves : droppedHalves (accuracyOfFraction rest divisor) = 2 * rest / divisor := by
    unfold accuracyOfFraction
    split
    · rename_i hrest
      rw [hrest, Nat.mul_zero, Nat.zero_div]
      rfl
    rcases Nat.lt_or_ge (2 * rest) divisor with hless | hmore
    · rw [Nat.compare_eq_lt.mpr hless, Nat.div_eq_of_lt hless]
      rfl
    · rw [Nat.div_eq_of_lt_le (by omega : 1 * divisor ≤ 2 * rest) (by omega)]
      rcases Nat.eq_or_lt_of_le hmore with heq | hgt
      · rw [Nat.compare_eq_eq.mpr heq.symm]
        rfl
      · rw [Nat.compare_eq_gt.mpr hgt]
        rfl
  rw [htwice, Nat.add_mul_div_left _ _ h, hhalves, Nat.add_comm]

section Scientific

variable {spec : Format} {top : Int} {m : Nat} {e : Int}

/-- A power of ten that is large enough alone passes the next power of two. -/
theorem middle_le_scaled {bits : Nat} (hm : m ≠ 0) (htop : 0 ≤ top) (h : top + bits ≤ e) :
    (2 ^ (bits + 1) - 1) * 2 ^ top.toNat ≤ 2 * (m * 10 ^ e.toNat) := by
  calc (2 ^ (bits + 1) - 1) * 2 ^ top.toNat
      ≤ 2 ^ (bits + 1) * 2 ^ top.toNat := Nat.mul_le_mul_right _ (Nat.sub_le _ _)
    _ = 2 ^ (bits + 1 + top.toNat) := (Nat.pow_add _ _ _).symm
    _ ≤ 2 ^ (e.toNat + 1) := Nat.pow_le_pow_right (by decide) (by omega)
    _ = 2 * 2 ^ e.toNat := Nat.pow_succ'
    _ ≤ 2 * 10 ^ e.toNat := Nat.mul_le_mul_left 2 (Nat.pow_le_pow_left (by decide) _)
    _ ≤ 2 * (m * 10 ^ e.toNat) :=
        Nat.mul_le_mul_left 2 (Nat.le_mul_of_pos_left _ (Nat.pos_iff_ne_zero.mpr hm))

/-- A power of ten that is small enough takes a decimal below one. -/
theorem lt_pow_of_exponent_lt (h : e < -m.log2) : m < 10 ^ (-e).toNat := by
  calc m < 2 ^ (m.log2 + 1) := Nat.lt_log2_self
    _ ≤ 2 ^ (-e).toNat := Nat.pow_le_pow_right (by decide) (by omega)
    _ ≤ 10 ^ (-e).toNat := Nat.pow_le_pow_left (by decide) _

/-- A decimal keeps within an exponent exactly if it is below the middle to the next power of
two. -/
theorem atMost_ofScientific_iff (hmin : spec.minExponent < top) (hzero : 0 < top)
    (hwide : top + spec.mantissaBits ≤ 2 ^ spec.exponentBits) :
    AtMost top (UnpackedFloat.ofScientific spec m e) ↔
      2 * (m * 10 ^ e.toNat) <
        (2 ^ (spec.mantissaBits + 1) - 1) * 2 ^ top.toNat * 10 ^ (-e).toNat := by
  have hcast : ((2 ^ spec.exponentBits : Nat) : Int) = 2 ^ spec.exponentBits := by norm_cast
  have hten (k : Nat) : 0 < 10 ^ k := Nat.pow_pos (by decide)
  have hmiddle : 2 ≤ (2 ^ (spec.mantissaBits + 1) - 1) * 2 ^ top.toNat := by
    have hbits : 2 ^ 1 ≤ 2 ^ (spec.mantissaBits + 1) := Nat.pow_le_pow_right (by decide) (by omega)
    exact Nat.le_trans (Nat.le_self_pow (by omega) 2) (Nat.le_mul_of_pos_left _ (by omega))
  rw [UnpackedFloat.ofScientific]
  by_cases hm : m = 0
  · rw [dif_pos hm]
    refine iff_of_true trivial ?_
    rw [hm, Nat.zero_mul, Nat.mul_zero]
    exact Nat.mul_pos (by omega) (hten _)
  rw [dif_neg hm]
  by_cases hbig : e > 2 ^ spec.exponentBits
  · have hneg : (-e).toNat = 0 := by omega
    rw [if_pos hbig, hneg, Nat.pow_zero, Nat.mul_one]
    exact iff_of_false id (Nat.not_lt.mpr (middle_le_scaled hm (by omega) (by omega)))
  rw [if_neg hbig]
  by_cases hsmall : e < -(2 ^ spec.exponentBits + m.log2)
  · have hpos : e.toNat = 0 := by omega
    rw [if_pos hsmall, hpos, Nat.pow_zero, Nat.mul_one]
    exact iff_of_true trivial (Nat.mul_lt_mul_of_le_of_lt hmiddle
      (lt_pow_of_exponent_lt (by omega)) (by omega))
  rw [if_neg hsmall]
  by_cases hpos : 0 ≤ e
  · rw [if_pos hpos]
    have hneg : (-e).toNat = 0 := by omega
    have hscale : (top - (-spec.mantissaBits + 0)).toNat = top.toNat + spec.mantissaBits := by omega
    rw [hneg, Nat.pow_zero, Nat.mul_one]
    refine (atMost_roundWithAccuracy_iff hmin (by omega)).trans ?_
    rw [droppedHalves, Nat.add_zero, hscale, Nat.shiftLeft_eq, Nat.mul_right_comm, ← Nat.mul_assoc,
      Nat.pow_add 2 top.toNat, ← Nat.mul_assoc (_ - 1)]
    exact Nat.mul_lt_mul_right (Nat.two_pow_pos _)
  · rw [if_neg hpos]
    have hpos : e.toNat = 0 := by omega
    rw [hpos, Nat.pow_zero, Nat.mul_one, div_finite]
    simp only [divCore]
    generalize hlow : min (0 - 0 : Int) _ = low
    have hscale : (top - low).toNat = top.toNat + (0 - 0 - low).toNat := by omega
    rw [atMost_roundWithAccuracy_iff hmin (by omega), halves_of_fraction _ (hten _),
      Nat.div_lt_iff_lt_mul (hten _), hscale, Nat.shiftLeft_eq, ← Nat.mul_assoc,
      Nat.pow_add 2 top.toNat, ← Nat.mul_assoc, Nat.mul_right_comm _ (2 ^ _) (10 ^ _)]
    exact Nat.mul_lt_mul_right (Nat.two_pow_pos _)

/-- The least magnitude that rounds beyond a format: the middle between its greatest number and the
next power of two. -/
def overflowLimit (spec : Format) : Nat :=
  (2 ^ (spec.mantissaBits + 1) - 1) * 2 ^ ((topExponent spec).toNat - 1)

/-- A decimal rounds to a number of the format exactly if it is below the limit. -/
theorem atMost_topExponent_iff (hmin : spec.minExponent < topExponent spec)
    (hzero : 0 < topExponent spec)
    (hwide : topExponent spec + spec.mantissaBits ≤ 2 ^ spec.exponentBits) :
    AtMost (topExponent spec) (UnpackedFloat.ofScientific spec m e) ↔
      m * 10 ^ e.toNat < overflowLimit spec * 10 ^ (-e).toNat := by
  have hhalf : 2 ^ (topExponent spec).toNat = 2 * 2 ^ ((topExponent spec).toNat - 1) := by
    rw [← Nat.pow_succ']
    congr
    omega
  rw [atMost_ofScientific_iff hmin hzero hwide, overflowLimit, hhalf, Nat.mul_left_comm (_ - 1),
    Nat.mul_assoc 2]
  exact Nat.mul_lt_mul_left (by decide)

end Scientific

end TreeScript
