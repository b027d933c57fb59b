import Mathlib
import TreeScript.Proofs.Decimal.Overflow
import TreeScript.Value

/-!
# Integers as doubles

An integer is widened to the double nearest to it, and to the one with the even mantissa if two are
as near. Doubles have 53 significant bits, so the double of an integer is a multiple of a power of
two that depends on the integer's size alone. `nearestDouble` says which multiple that is, in
integers only; up to `2 ^ 53` it is the integer itself. Two integers are widened to equal doubles
exactly if their nearest doubles are the same integer: `Value.widen_beq_widen_iff`.
-/

namespace TreeScript

open Float.Model (Format UnpackedFloat totalExponent)
open Float.Model.UnpackedFloat

/-! ### Multiples of a unit -/

/-- How often a unit goes into a number, rounded to nearest, ties to even. -/
def nearestQuotient (unit n : Nat) : Nat :=
  if 2 * (n % unit) < unit then n / unit
  else if 2 * (n % unit) = unit then n / unit + n / unit % 2
  else n / unit + 1

/-- Rounding adds one at most. -/
theorem nearestQuotient_bounds (unit n : Nat) :
    n / unit ≤ nearestQuotient unit n ∧ nearestQuotient unit n ≤ n / unit + 1 := by
  unfold nearestQuotient
  split
  · omega
  · split <;> omega

/-- Rounding does not depend on the scale. -/
theorem nearestQuotient_scale {scale : Nat} (hscale : 0 < scale) (unit n : Nat) :
    nearestQuotient (unit * scale) (n * scale) = nearestQuotient unit n := by
  have hlt : 2 * (n % unit * scale) < unit * scale ↔ 2 * (n % unit) < unit := by
    rw [← Nat.mul_assoc]
    exact Nat.mul_lt_mul_right hscale
  have heq : 2 * (n % unit * scale) = unit * scale ↔ 2 * (n % unit) = unit := by
    rw [← Nat.mul_assoc]
    exact Nat.mul_left_inj hscale.ne'
  unfold nearestQuotient
  rw [Nat.mul_mod_mul_right, Nat.mul_div_mul_right _ _ hscale]
  simp only [hlt, heq]

/-- Whole units are exact. -/
theorem nearestQuotient_one (n : Nat) : nearestQuotient 1 n = n := by
  simp [nearestQuotient, Nat.mod_one]

/-- Multiples are exact. -/
theorem nearestQuotient_mul_of_dvd {unit n : Nat} (hunit : 0 < unit) (h : unit ∣ n) :
    nearestQuotient unit n * unit = n := by
  obtain ⟨count, rfl⟩ := h
  have hexact := nearestQuotient_scale hunit 1 count
  rw [Nat.one_mul, nearestQuotient_one] at hexact
  rw [Nat.mul_comm unit, hexact]

/-- The unit of the last of the 53 significant bits of a number. -/
def lastPlace (n : Nat) : Nat := 2 ^ (n.log2 - 52)

/-- The last place is positive. -/
theorem lastPlace_pos (n : Nat) : 0 < lastPlace n := Nat.two_pow_pos _

/-- The double nearest to a natural number, as a natural number. -/
def nearestMagnitude (n : Nat) : Nat := nearestQuotient (lastPlace n) n * lastPlace n

/-- The double nearest to an integer, as an integer. -/
def nearestDouble (n : Int) : Int := n.sign * nearestMagnitude n.natAbs

/-! ### Shifts that round -/

section Shift

variable (mantissa count : Nat)

/-- Below the round bit something was dropped, unless twice the number is a multiple. -/
theorem stickyBit_shiftRight :
    (ExtendedMantissa.ofMantissaAndAccuracy mantissa .exact >>> count).stickyBit = true ↔
      2 * mantissa % 2 ^ count ≠ 0 := by
  induction count with
  | zero =>
    simp [HShiftRight.hShiftRight, Nat.repeat, Nat.mod_one, ExtendedMantissa.ofMantissaAndAccuracy]
  | succ count ih =>
    change (ExtendedMantissa.ofMantissaAndAccuracy mantissa .exact >>>
      count).shiftRightOne.stickyBit = true ↔ _
    have hhalves := halves_shiftRight (.ofMantissaAndAccuracy mantissa .exact) count
    generalize ExtendedMantissa.ofMantissaAndAccuracy mantissa .exact >>> count = em at ih hhalves ⊢
    have hbit : em.roundBit = true ↔ 2 * mantissa / 2 ^ count % 2 ≠ 0 := by
      change 2 * em.mantissa + em.roundBit.toNat = 2 * mantissa / 2 ^ count at hhalves
      rw [← hhalves]
      cases em.roundBit <;> simp [Nat.add_mod]
    have hmod : 2 * mantissa % 2 ^ (count + 1) =
        2 * mantissa % 2 ^ count + 2 ^ count * (2 * mantissa / 2 ^ count % 2) := by
      rw [Nat.pow_succ, Nat.mod_mul]
    have hpow := Nat.two_pow_pos count
    rw [ExtendedMantissa.shiftRightOne, Bool.or_eq_true, hbit, ih, hmod, ne_eq, ne_eq, ne_eq,
      Nat.add_eq_zero_iff, Nat.mul_eq_zero]
    omega

/-- Shifting a mantissa and rounding what was dropped is a rounded division. -/
theorem roundedMantissa_shiftRight :
    (ExtendedMantissa.ofMantissaAndAccuracy mantissa .exact >>> count).roundedMantissa =
      nearestQuotient (2 ^ count) mantissa := by
  have hsticky := stickyBit_shiftRight mantissa count
  have hhalves := halves_shiftRight (.ofMantissaAndAccuracy mantissa .exact) count
  have hmantissa :
      (ExtendedMantissa.ofMantissaAndAccuracy mantissa .exact >>> count).mantissa =
        mantissa / 2 ^ count := mantissa_shiftRight
  generalize ExtendedMantissa.ofMantissaAndAccuracy mantissa .exact >>> count = em at *
  obtain ⟨quotient, roundBit, stickyBit⟩ := em
  change 2 * quotient + roundBit.toNat = 2 * mantissa / 2 ^ count at hhalves
  change quotient = mantissa / 2 ^ count at hmantissa
  -- twice the number, divided in both ways
  have hwhole := Nat.div_add_mod mantissa (2 ^ count)
  have htwice := Nat.div_add_mod (2 * mantissa) (2 ^ count)
  have hlt := Nat.mod_lt (2 * mantissa) (Nat.two_pow_pos count)
  rw [← hhalves, Nat.mul_add, Nat.mul_left_comm, hmantissa] at htwice
  unfold nearestQuotient
  cases roundBit <;> cases stickyBit <;>
    simp only [ExtendedMantissa.roundedMantissa, ExtendedMantissa.accuracy,
      Accuracy.roundToNearestEven, Bool.toNat_true, Bool.toNat_false, Nat.mul_zero, Nat.mul_one,
      Bool.false_eq_true, false_iff, true_iff, not_not] at hsticky htwice ⊢ <;>
    subst hmantissa
  · rw [if_pos (by omega)]
  · rw [if_pos (by omega)]
  · rw [if_neg (by omega), if_pos (by omega)]
  · rw [if_neg (by omega), if_neg (by omega)]

end Shift

/-! ### Whole numbers in normal form -/

/-- A number in normal form whose magnitude is a natural number. -/
def IsWhole (sign : Sign) (magnitude : Nat) (x : UnpackedFloat) : Prop :=
  ∃ m e hm, x = .finite sign m e hm ∧ 2 ^ 52 ≤ m ∧ m < 2 ^ 53 ∧ -52 ≤ e ∧ e ≤ 971 ∧
    m * 2 ^ (e + 52).toNat = magnitude * 2 ^ 52

/-- A mantissa that has all bits of the format is not shifted. -/
theorem shiftToTargetExponent_of_lt {m : Nat} {e : Int} (hm : m < 2 ^ 53) (he : -1074 ≤ e) :
    shiftToTargetExponent .binary64 m e .exact = (⟨m, false, false⟩, e) := by
  have htotal : totalExponent m e ≤ (53 : Nat) + e := totalExponent_le e (by decide) hm
  have hshift : (Format.binary64.targetExponent (totalExponent m e) - e).toNat = 0 := by
    change (max (_ - ((53 : Nat) : Int)) (-1074) - e).toNat = 0
    omega
  simp only [shiftToTargetExponent, shiftToExponent, hshift]
  simp [HShiftRight.hShiftRight, Nat.repeat, ExtendedMantissa.ofMantissaAndAccuracy]

/-- A mantissa that was rounded up to one bit more is shifted by one. -/
theorem shiftToTargetExponent_carry {e : Int} (he : -1074 ≤ e) :
    shiftToTargetExponent .binary64 (2 ^ 53) e .exact = (⟨2 ^ 52, false, false⟩, e + 1) := by
  have hshift : (Format.binary64.targetExponent (totalExponent (2 ^ 53) e) - e).toNat = 1 := by
    rw [totalExponent, Nat.log2_two_pow]
    change (max (_ - ((53 : Nat) : Int)) (-1074) - e).toNat = 1
    omega
  simp only [shiftToTargetExponent, shiftToExponent, hshift]
  rfl

/-- A whole number may be recognized at any scale. -/
theorem isWhole_of_scaled {sign : Sign} {m n : Nat} {e : Int} (scale : Nat) (hm : 0 < m)
    (hle : 2 ^ 52 ≤ m) (hlt : m < 2 ^ 53) (htop : e ≤ 971) (hscale : -scale ≤ e)
    (h : m * 2 ^ (e + scale).toNat = n * 2 ^ scale) : IsWhole sign n (.finite sign m e hm) := by
  have hpos : 0 < n := by
    refine Nat.pos_of_mul_pos_right (a := n) (b := 2 ^ scale) ?_
    rw [← h]
    exact Nat.mul_pos hm (Nat.two_pow_pos _)
  have hlow : -52 ≤ e := by
    have hpow : 2 ^ scale < 2 ^ (53 + (e + scale).toNat) := by
      calc 2 ^ scale ≤ n * 2 ^ scale := Nat.le_mul_of_pos_left _ hpos
        _ = m * 2 ^ (e + scale).toNat := h.symm
        _ < 2 ^ 53 * 2 ^ (e + scale).toNat := Nat.mul_lt_mul_of_pos_right hlt (Nat.two_pow_pos _)
        _ = 2 ^ (53 + (e + scale).toNat) := (Nat.pow_add _ _ _).symm
    have := (Nat.pow_lt_pow_iff_right (by decide)).mp hpow
    omega
  refine ⟨m, e, hm, rfl, hle, hlt, hlow, htop, ?_⟩
  apply Nat.eq_of_mul_eq_mul_right (Nat.two_pow_pos scale)
  calc m * 2 ^ (e + 52).toNat * 2 ^ scale
      = m * 2 ^ ((e + 52).toNat + scale) := by rw [Nat.mul_assoc, Nat.pow_add]
    _ = m * 2 ^ ((e + scale).toNat + 52) := by congr 2; omega
    _ = n * 2 ^ scale * 2 ^ 52 := by rw [Nat.pow_add, ← Nat.mul_assoc, h]
    _ = n * 2 ^ 52 * 2 ^ scale := Nat.mul_right_comm _ _ _

/-- A number with enough bits is rounded to the nearest multiple of the unit in its last place. -/
theorem isWhole_roundWithAccuracy {sign : Sign} {m scale n : Nat} (hm : 2 ^ 52 ≤ m)
    (hlow : scale ≤ m.log2 + 1022) (hhigh : m.log2 ≤ scale + 1022)
    (hn : nearestQuotient (lastPlace m) m * lastPlace m = n * 2 ^ scale) :
    IsWhole sign n (roundWithAccuracy .binary64 sign m (-scale) .exact) := by
  have hpos : m ≠ 0 := by omega
  have hlog : 52 ≤ m.log2 := (Nat.le_log2 hpos).mpr hm
  generalize hshift : m.log2 - 52 = shift
  have hquotient : 2 ^ 52 ≤ m / 2 ^ shift ∧ m / 2 ^ shift < 2 ^ 53 := by
    rw [Nat.le_div_iff_mul_le (Nat.two_pow_pos _), Nat.div_lt_iff_lt_mul (Nat.two_pow_pos _),
      ← Nat.pow_add, ← Nat.pow_add, show 52 + shift = m.log2 by omega,
      show 53 + shift = m.log2 + 1 by omega]
    exact ⟨Nat.log2_self_le hpos, Nat.lt_log2_self⟩
  have hfirst : shiftToTargetExponent .binary64 m (-scale) .exact =
      (ExtendedMantissa.ofMantissaAndAccuracy m .exact >>> shift, (shift - scale : Int)) := by
    have htarget : (Format.binary64.targetExponent (totalExponent m (-scale)) - -scale).toNat =
        shift := by
      change (max (_ + 1 + _ - ((53 : Nat) : Int)) (-1074) - _).toNat = _
      omega
    simp only [shiftToTargetExponent, shiftToExponent, htarget]
    rw [Int.add_comm, Int.sub_eq_add_neg]
  have hbounds := nearestQuotient_bounds (2 ^ shift) m
  rw [lastPlace, hshift] at hn
  have hstays : (-1074 : Int) ≤ shift - scale := by omega
  simp only [roundWithAccuracy, hfirst, roundedMantissa_shiftRight]
  by_cases hlt : nearestQuotient (2 ^ shift) m < 2 ^ 53
  · simp only [shiftToTargetExponent_of_lt hlt hstays]
    rw [dif_neg (by omega)]
    refine isWhole_of_scaled scale _ (by omega) hlt (by omega) (by omega) ?_
    rw [show (shift - scale + scale : Int).toNat = shift by omega, hn]
  · have hcarry : nearestQuotient (2 ^ shift) m = 2 ^ 53 := by omega
    simp only [hcarry, shiftToTargetExponent_carry hstays]
    rw [dif_neg (by decide)]
    refine isWhole_of_scaled scale _ (Nat.le_refl _) (by decide) (by omega) (by omega) ?_
    rw [show (shift - scale + 1 + scale : Int).toNat = 1 + shift by omega, Nat.pow_add,
      ← Nat.mul_assoc, ← hn, hcarry]
    rfl

namespace IsWhole

variable {sign other : Sign} {n k : Nat} {x y : UnpackedFloat}

/-- The negative is whole, too. -/
theorem neg (h : IsWhole sign n x) : IsWhole (-sign) n x.neg := by
  obtain ⟨m, e, hm, rfl, h⟩ := h
  exact ⟨m, e, hm, rfl, h⟩

/-- Packing loses nothing of a number in normal form. -/
theorem pack (h : IsWhole sign n x) : IsWhole sign n (Float.Model.pack x).unpack := by
  obtain ⟨m, e, hm, rfl, hle, hlt, hlow, htop, hvalue⟩ := h
  refine ⟨m, e, hm, ?_, hle, hlt, hlow, htop, hvalue⟩
  have hlog : m.log2 + 1 = Format.binary64.mantissaBits := by
    rw [(Nat.log2_eq_iff hm.ne').mpr ⟨hle, hlt⟩]
    rfl
  generalize hstored : (e + 1075).toNat = stored
  have hpacked : UnpackedFloat.pack .binary64 (.finite sign m e hm) =
      packComponents .binary64 sign (BitVec.ofNat _ stored) (BitVec.ofNat _ m) := by
    have hbiased : (e + (Format.binary64.exponentBias : Nat) +
        (Format.binary64.mantissaBitsWithoutImplicit : Nat)).toNat = stored := by
      change (e + (1023 : Nat) + (52 : Nat)).toNat = stored
      omega
    simp only [UnpackedFloat.pack, hbiased]
    rw [if_neg (show ¬ 2 ^ 11 ≤ stored + 1 by omega), if_pos hlog]
  have hexponent : (BitVec.ofNat 11 stored).toNat = stored := by
    rw [BitVec.toNat_ofNat, Nat.mod_eq_of_lt (by omega)]
  have hones : BitVec.ofNat 11 stored ≠ -1#11 := by
    rw [ne_eq, ← BitVec.toNat_inj, hexponent, toNat_ones]
    omega
  have hzero : BitVec.ofNat 11 stored ≠ 0#11 := by
    rw [ne_eq, ← BitVec.toNat_inj, hexponent]
    change stored ≠ 0
    omega
  have hmantissa : (1#1 ++ BitVec.ofNat 52 m).toNat = m := by
    rw [toNat_one_append, BitVec.toNat_ofNat]
    omega
  change UnpackedFloat.unpack .binary64 (UnpackedFloat.pack .binary64 _) = _
  rw [hpacked]
  simp only [UnpackedFloat.unpack, unpackExponent_packComponents, unpackMantissa_packComponents,
    unpackSign_packComponents, Sign.ofBitVec_toBitVec, if_neg hones, if_neg hzero, hmantissa,
    hexponent]
  congr 1
  change (stored : Int) - ((1023 : Nat) + (52 : Nat) : Int) = e
  omega

/-- Of two numbers in normal form, the one with the smaller exponent is smaller. -/
theorem scaled_lt {m k a b : Nat} (hm : m < 2 ^ 53) (hk : 2 ^ 52 ≤ k) (h : a < b) :
    m * 2 ^ a < k * 2 ^ b := by
  calc m * 2 ^ a < 2 ^ 53 * 2 ^ a := Nat.mul_lt_mul_of_pos_right hm (Nat.two_pow_pos _)
    _ = 2 ^ 52 * 2 ^ (a + 1) := by rw [← Nat.pow_add, ← Nat.pow_add]; congr 1; omega
    _ ≤ 2 ^ 52 * 2 ^ b := Nat.mul_le_mul_left _ (Nat.pow_le_pow_right (by decide) h)
    _ ≤ k * 2 ^ b := Nat.mul_le_mul_right _ hk

/-- Whole numbers are equal exactly if their signs and magnitudes are. -/
theorem beq_iff (h : IsWhole sign n x) (hother : IsWhole other k y) :
    x.beq y = true ↔ sign = other ∧ n = k := by
  obtain ⟨m, e, hm, rfl, hle, hlt, hlow, -, hvalue⟩ := h
  obtain ⟨m', e', hm', rfl, hle', hlt', hlow', -, hvalue'⟩ := hother
  simp only [beq_iff_ne_notANumber_and_eq, UnpackedFloat.finite.injEq, ne_eq, reduceCtorEq,
    not_false_eq_true, true_and, false_and, or_false, and_congr_right_iff]
  intro _
  constructor
  · rintro ⟨rfl, rfl⟩
    exact Nat.eq_of_mul_eq_mul_right (Nat.two_pow_pos 52) (hvalue.symm.trans hvalue')
  · rintro rfl
    have hsame := hvalue.trans hvalue'.symm
    rcases Nat.lt_trichotomy (e + 52).toNat (e' + 52).toNat with hless | heq | hgreater
    · exact absurd hsame (scaled_lt hlt hle' hless).ne
    · rw [heq] at hsame
      exact ⟨Nat.eq_of_mul_eq_mul_right (Nat.two_pow_pos _) hsame, by omega⟩
    · exact absurd hsame (scaled_lt hlt' hle hgreater).ne'

/-- It is not zero. -/
theorem beq_zero (h : IsWhole sign n x) : x.beq (.zero other) = false := by
  obtain ⟨m, e, hm, rfl, -⟩ := h
  cases sign <;> rfl

/-- Nor is zero equal to it. -/
theorem zero_beq (h : IsWhole sign n x) : UnpackedFloat.beq (.zero other) x = false := by
  obtain ⟨m, e, hm, rfl, -⟩ := h
  cases sign <;> rfl

end IsWhole

/-! ### Natural numbers -/

/-- Doubling adds one to the logarithm. -/
theorem log2_mul_two_pow {n : Nat} (hn : n ≠ 0) (count : Nat) :
    (n * 2 ^ count).log2 = n.log2 + count := by
  induction count with
  | zero => rw [Nat.pow_zero, Nat.mul_one, Nat.add_zero]
  | succ count ih =>
    have hne : n * 2 ^ count ≠ 0 := Nat.mul_ne_zero hn (Nat.two_pow_pos count).ne'
    rw [Nat.pow_succ', Nat.mul_left_comm, Nat.log2_two_mul hne, ih, Nat.add_assoc]

/-- A natural number with enough zeros behind it is rounded to the nearest double. -/
theorem isWhole_shifted {sign : Sign} {n scale : Nat} (hn : n ≠ 0) (hlt : n < 2 ^ 64)
    (hscale : 52 ≤ n.log2 + scale) :
    IsWhole sign (nearestMagnitude n)
      (roundWithAccuracy .binary64 sign (n * 2 ^ scale) (-scale) .exact) := by
  have hlog := log2_mul_two_pow hn scale
  have hbits : n.log2 < 64 := (Nat.log2_lt hn).mpr hlt
  apply isWhole_roundWithAccuracy
  · refine Nat.le_trans (Nat.pow_le_pow_right (by decide) hscale) ?_
    rw [← hlog]
    exact Nat.log2_self_le (Nat.mul_ne_zero hn (Nat.two_pow_pos scale).ne')
  · omega
  · omega
  · rw [nearestMagnitude]
    rcases Nat.le_total 52 n.log2 with hlarge | hsmall
    · have hunit : lastPlace (n * 2 ^ scale) = lastPlace n * 2 ^ scale := by
        rw [lastPlace, lastPlace, hlog, ← Nat.pow_add]
        congr 1
        omega
      rw [hunit, nearestQuotient_scale (Nat.two_pow_pos scale), Nat.mul_assoc]
    · -- no bit of the number is dropped
      have hdvd : lastPlace (n * 2 ^ scale) ∣ n * 2 ^ scale := by
        refine Dvd.dvd.mul_left (Nat.pow_dvd_pow 2 ?_) n
        rw [hlog]
        omega
      rw [nearestQuotient_mul_of_dvd (lastPlace_pos _) hdvd, lastPlace,
        Nat.sub_eq_zero_of_le hsmall, Nat.pow_zero, nearestQuotient_one, Nat.mul_one]

/-- Natural numbers of up to 53 bits are their own nearest doubles. -/
theorem nearestMagnitude_of_lt {n : Nat} (h : n < 2 ^ 53) : nearestMagnitude n = n := by
  have hlog : n.log2 - 52 = 0 := by
    by_cases hn : n = 0
    · rw [hn, Nat.log2_zero]
    · exact Nat.sub_eq_zero_of_le (Nat.le_of_lt_succ ((Nat.log2_lt hn).mpr h))
  rw [nearestMagnitude, lastPlace, hlog, Nat.pow_zero, nearestQuotient_one, Nat.mul_one]

/-- Nearest doubles do not fall below the power of two that a number reaches. -/
theorem le_nearestMagnitude {n : Nat} (h : 2 ^ 53 ≤ n) : 2 ^ 53 ≤ nearestMagnitude n := by
  have hn : n ≠ 0 := by omega
  have hlog : 53 ≤ n.log2 := (Nat.le_log2 hn).mpr h
  calc 2 ^ 53 ≤ 2 ^ 52 * lastPlace n := by
        rw [lastPlace, ← Nat.pow_add]
        exact Nat.pow_le_pow_right (by decide) (by omega)
    _ ≤ n / lastPlace n * lastPlace n := by
        refine Nat.mul_le_mul_right _ ((Nat.le_div_iff_mul_le (lastPlace_pos n)).mpr ?_)
        rw [lastPlace, ← Nat.pow_add, show 52 + (n.log2 - 52) = n.log2 by omega]
        exact Nat.log2_self_le hn
    _ ≤ nearestMagnitude n := Nat.mul_le_mul_right _ (nearestQuotient_bounds _ _).1

/-- A natural number of up to 53 bits, normalized. -/
theorem isWhole_round {n : Nat} (hn : n ≠ 0) (h : n < 2 ^ 53) :
    IsWhole .positive n (UnpackedFloat.round .binary64 .positive n 0) := by
  have hlog : n.log2 < 53 := (Nat.log2_lt hn).mpr h
  have htarget : (0 - Format.binary64.targetExponent (totalExponent n 0)).toNat = 52 - n.log2 := by
    change (0 - max (_ + 1 + 0 - ((53 : Nat) : Int)) (-1074)).toNat = _
    omega
  have hwhole : IsWhole .positive (nearestMagnitude n) (roundWithAccuracy .binary64 .positive
      (n * 2 ^ (52 - n.log2)) (-(52 - n.log2 : Nat)) .exact) :=
    isWhole_shifted hn (by omega) (by omega)
  rw [nearestMagnitude_of_lt h] at hwhole
  simp only [UnpackedFloat.round, decreaseExponent, htarget, Nat.shiftLeft_eq]
  rw [Int.zero_sub]
  exact hwhole

/-- A product is rounded once. -/
theorem mul_finite {spec : Format} {s₁ s₂ : Sign} {m₁ m₂ : Nat} {e₁ e₂ : Int} {h₁ : 0 < m₁}
    {h₂ : 0 < m₂} :
    UnpackedFloat.mul spec (.finite s₁ m₁ e₁ h₁) (.finite s₂ m₂ e₂ h₂) =
      roundWithAccuracy spec (s₁ * s₂) (m₁ * m₂) (e₁ + e₂) .exact := rfl

/-- Multiplying with one keeps a natural number of up to 53 bits. -/
theorem IsWhole.mul_one {n : Nat} {x : UnpackedFloat} (hn : n < 2 ^ 53)
    (h : IsWhole .positive n x) :
    IsWhole .positive n
      (UnpackedFloat.mul .binary64 x (.finite .positive (2 ^ 52) (-52) (by decide))) := by
  obtain ⟨m, e, hm, rfl, hle, hlt, hlow, htop, hvalue⟩ := h
  have hpos : n ≠ 0 := by
    rintro rfl
    rw [Nat.zero_mul, Nat.mul_eq_zero] at hvalue
    have := Nat.two_pow_pos (e + 52).toNat
    omega
  have hexponent : e ≤ 0 := by
    by_contra hgreater
    have hscaled := scaled_lt hn hle (show 52 < (e + 52).toNat by omega)
    exact hscaled.ne hvalue.symm
  obtain ⟨zeros, rfl⟩ := Int.exists_eq_neg_ofNat hexponent
  have hproduct : m * 2 ^ 52 = n * 2 ^ (zeros + 52) := by
    rw [Nat.pow_add, Nat.mul_left_comm, ← hvalue, Nat.mul_left_comm, ← Nat.pow_add]
    congr 2
    omega
  have hwhole : IsWhole .positive (nearestMagnitude n) (roundWithAccuracy .binary64 .positive
      (n * 2 ^ (zeros + 52)) (-(zeros + 52 : Nat)) .exact) :=
    isWhole_shifted hpos (by omega) (by omega)
  rw [nearestMagnitude_of_lt hn, ← hproduct] at hwhole
  rw [mul_finite, show (-zeros + -52 : Int) = -((zeros + 52 : Nat) : Int) by omega]
  exact hwhole

/-- A word of up to 53 bits as a double. -/
theorem isWhole_toFloat {n : Nat} (hn : n ≠ 0) (h : n < 2 ^ 53) :
    IsWhole .positive n n.toUInt64.toFloat.toModel.unpack := by
  have hword : n.toUInt64.toNat = n := Nat.mod_eq_of_lt (Nat.lt_trans h (by decide))
  refine IsWhole.pack (x := UnpackedFloat.ofUInt64 .binary64 n.toUInt64) ?_
  simp only [UnpackedFloat.ofUInt64, UnpackedFloat.ofNat, UnpackedFloat.ofInt, hword,
    UnpackedFloat.normalize]
  rw [Int.compare_eq_gt.mpr (by omega)]
  exact isWhole_round hn h

/-- The double of a natural number. -/
theorem isWhole_ofNat {n : Nat} (hn : n ≠ 0) (hlt : n < 2 ^ 64) :
    IsWhole .positive (nearestMagnitude n) (Float.ofNat n).toModel.unpack := by
  change IsWhole _ _ (Float.ofScientific n false 0).toModel.unpack
  rw [Float.ofScientific]
  by_cases hsmall : n < 2 ^ 53
  · have hone : Float.exactlyRepresentablePowersOfTen[0].toModel.unpack =
        .finite .positive (2 ^ 52) (-52) (by decide) := rfl
    have hproduct := ((isWhole_toFloat hn hsmall).mul_one hsmall).pack
    rw [← hone] at hproduct
    rw [dif_pos ⟨hsmall, by decide⟩, nearestMagnitude_of_lt hsmall]
    exact hproduct
  · have hscaled : IsWhole .positive (nearestMagnitude n)
        (roundWithAccuracy .binary64 .positive (n * 2 ^ 53) (-53) .exact) :=
      isWhole_shifted hn hlt (by omega)
    rw [dif_neg (by omega)]
    refine IsWhole.pack (x := UnpackedFloat.ofScientific .binary64 n 0) ?_
    have hlow : ¬ (0 : Int) < -(2 ^ Format.binary64.exponentBits + n.log2) := by
      change ¬ (0 : Int) < -(2048 + n.log2)
      omega
    simp only [UnpackedFloat.ofScientific]
    rw [dif_neg hn, if_neg (by decide), if_neg hlow, if_pos (Int.le_refl 0)]
    rw [mul_finite, Int.toNat_zero, Nat.pow_zero, Nat.mul_one, Int.add_zero, Nat.shiftLeft_eq]
    exact hscaled

/-! ### Integers -/

/-- The sign of an integer as a double has it. -/
def signOf : Int → Sign
  | .ofNat _ => .positive
  | .negSucc _ => .negative

/-- The double of an integer of up to 64 bits. -/
theorem isWhole_ofInt {n : Int} (hn : n ≠ 0) (hlt : n.natAbs < 2 ^ 64) :
    IsWhole (signOf n) (nearestMagnitude n.natAbs) (Float.ofInt n).toModel.unpack := by
  cases n with
  | ofNat n => exact isWhole_ofNat (fun h => hn (congrArg Int.ofNat h)) hlt
  | negSucc n => exact (isWhole_ofNat (Nat.succ_ne_zero n) hlt).neg.pack

/-- The nearest magnitude is positive. -/
theorem nearestMagnitude_pos {n : Nat} (hn : n ≠ 0) : 0 < nearestMagnitude n := by
  rcases Nat.lt_or_ge n (2 ^ 53) with hlt | hle
  · rw [nearestMagnitude_of_lt hlt]
    omega
  · have := le_nearestMagnitude hle
    omega

/-- A sign and a magnitude make the nearest double. -/
theorem nearestDouble_eq_apply {n : Int} (hn : n ≠ 0) :
    nearestDouble n = (signOf n).apply (nearestMagnitude n.natAbs) := by
  cases n with
  | ofNat n =>
    have hpos : 0 < Int.ofNat n := Int.natCast_pos.mpr (by grind)
    rw [nearestDouble, Int.sign_eq_one_of_pos hpos, Int.one_mul]
    rfl
  | negSucc n =>
    rw [nearestDouble, Int.sign_eq_neg_one_of_neg (Int.negSucc_lt_zero n), Int.neg_one_mul]
    rfl

/-- The nearest double of an integer tells its sign and its magnitude. -/
theorem nearestDouble_eq_iff {m n : Int} (hm : m ≠ 0) (hn : n ≠ 0) :
    nearestDouble m = nearestDouble n ↔
      signOf m = signOf n ∧ nearestMagnitude m.natAbs = nearestMagnitude n.natAbs := by
  have hpos := nearestMagnitude_pos (Int.natAbs_ne_zero.mpr hm)
  have hpos' := nearestMagnitude_pos (Int.natAbs_ne_zero.mpr hn)
  rw [nearestDouble_eq_apply hm, nearestDouble_eq_apply hn]
  cases signOf m <;> cases signOf n <;>
    simp only [Sign.apply, reduceCtorEq, true_and, false_and, iff_false] <;> omega

/-- The nearest double is not zero. -/
theorem nearestDouble_ne_zero {n : Int} (hn : n ≠ 0) : nearestDouble n ≠ 0 :=
  Int.mul_ne_zero (mt Int.sign_eq_zero_iff_zero.mp hn)
    (Int.natCast_ne_zero.mpr (nearestMagnitude_pos (Int.natAbs_ne_zero.mpr hn)).ne')

/-- Two integers have the same nearest double only if both have more than 53 bits. -/
theorem le_natAbs_of_nearestDouble_eq {m n : Int} (hne : m ≠ n)
    (h : nearestDouble m = nearestDouble n) : 2 ^ 53 ≤ m.natAbs := by
  by_contra hlt
  rw [Nat.not_le] at hlt
  have hexact : nearestDouble m = m := by
    rw [nearestDouble, nearestMagnitude_of_lt hlt, Int.sign_mul_natAbs]
  rcases Nat.lt_or_ge n.natAbs (2 ^ 53) with hsmall | hlarge
  · rw [hexact, nearestDouble, nearestMagnitude_of_lt hsmall, Int.sign_mul_natAbs] at h
    exact hne h
  · have hsize : m.natAbs = nearestMagnitude n.natAbs := by
      rw [← hexact, h, nearestDouble, Int.natAbs_mul, Int.natAbs_natCast,
        Int.natAbs_sign_of_ne_zero (by omega), Nat.one_mul]
    have := le_nearestMagnitude hlarge
    omega

namespace Value

/-- Integers are widened to equal doubles exactly if they have the same nearest double. -/
theorem widen_beq_widen_iff (a b : Int64) :
    (widen a == widen b) = true ↔ nearestDouble a.toInt = nearestDouble b.toInt := by
  have hword (c : Int64) : c.toInt.natAbs < 2 ^ 64 := by
    have := c.toInt_lt
    have := c.le_toInt
    omega
  have hzero : (Float.ofInt 0).toModel.unpack = .zero .positive := rfl
  change (Float.ofInt a.toInt).toModel.unpack.beq (Float.ofInt b.toInt).toModel.unpack = true ↔ _
  by_cases ha : a.toInt = 0
  · by_cases hb : b.toInt = 0
    · rw [ha, hb]
      exact iff_of_true rfl rfl
    · rw [ha, hzero, (isWhole_ofInt hb (hword b)).zero_beq]
      exact iff_of_false Bool.false_ne_true (nearestDouble_ne_zero hb).symm
  · by_cases hb : b.toInt = 0
    · rw [hb, hzero, (isWhole_ofInt ha (hword a)).beq_zero]
      exact iff_of_false Bool.false_ne_true (nearestDouble_ne_zero ha)
    · rw [(isWhole_ofInt ha (hword a)).beq_iff (isWhole_ofInt hb (hword b)),
        nearestDouble_eq_iff ha hb]

-- Halfway between two doubles the one with the even mantissa is nearest.
example : nearestDouble 9007199254740993 = 9007199254740992 ∧
    (widen 9007199254740993 == widen 9007199254740992) = true := by
  decide

end Value

end TreeScript
