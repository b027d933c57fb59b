import Mathlib.Algebra.Ring.Int.Defs
import Mathlib.Data.Nat.Cast.Basic
import Mathlib.Tactic.ByContra
import TreeScript.Decimal.Binary

/-!
# Exponents of rounded numbers

A number is finite exactly when its stored exponent is not all ones. So whether a rounded product
or quotient is finite is a matter of its exponent alone, and that is known up to one from the
leading bits of the operands. Nothing here depends on how ties are rounded.
-/

namespace TreeScript

open Float.Model (Format UnpackedFloat totalExponent)
open Float.Model.UnpackedFloat

variable {x : UnpackedFloat}

/-! ### The stored exponent -/

/-- Whether a bit pattern stands for a number. -/
def Decoded.IsFinite (decoded : Decoded) : Prop :=
  ∃ negative mantissa exponent, decoded = .finite negative mantissa exponent

instance Decoded.decidableIsFinite : (decoded : Decoded) → Decidable decoded.IsFinite
  | .finite negative mantissa exponent => .isTrue ⟨negative, mantissa, exponent, rfl⟩
  | .infinite _ => .isFalse fun ⟨_, _, _, h⟩ => Decoded.noConfusion h
  | .notANumber => .isFalse fun ⟨_, _, _, h⟩ => Decoded.noConfusion h

/-- A bit pattern is finite unless its stored exponent is all ones. -/
theorem BinaryFormat.isFinite_decode_iff {format : BinaryFormat} {bits : Nat} :
    (format.decode bits).IsFinite ↔
      bits / 2 ^ format.fractionBits % 2 ^ format.exponentBits ≠ 2 ^ format.exponentBits - 1 := by
  change _ ↔ bits / Nat.pow 2 _ % Nat.pow 2 _ ≠ Nat.pow 2 _ - 1
  constructor
  · rintro ⟨negative, mantissa, exponent, h⟩ hfull
    rw [decode, if_pos hfull] at h
    split at h <;> cases h
  · intro hfull
    rw [decode, if_neg hfull]
    split
    · exact ⟨_, _, _, rfl⟩
    · exact ⟨_, _, _, rfl⟩

/-- The exponent's bits are those above the mantissa. -/
theorem toNat_unpackExponent {spec : Format} {bits : BitVec spec.numBits} :
    (unpackExponent bits).toNat =
      bits.toNat / 2 ^ spec.mantissaBitsWithoutImplicit % 2 ^ spec.exponentBits := by
  have he := spec.he
  rw [unpackExponent, BitVec.toNat_cast, BitVec.extractLsb_toNat, Nat.shiftRight_eq_div_pow]
  congr 2
  omega

/-- All ones are one less than a power of two. -/
theorem toNat_ones {w : Nat} : (-1#w).toNat = 2 ^ w - 1 := by
  rw [BitVec.neg_one_eq_allOnes, BitVec.toNat_allOnes]

/-- The highest exponent of a finite number of a format. -/
def topExponent (spec : Format) : Int :=
  2 ^ spec.exponentBits - 2 - spec.exponentBias - spec.mantissaBitsWithoutImplicit

/-- A zero, or a finite number whose exponent is at most `top`. -/
def AtMost (top : Int) : UnpackedFloat → Prop
  | .zero _ => True
  | .finite _ _ exponent _ => exponent ≤ top
  | _ => False

/-- Infinite or no number at all, or a number whose exponent is above `top`. -/
def Beyond (top : Int) : UnpackedFloat → Prop
  | .zero _ => False
  | .finite _ _ exponent _ => top < exponent
  | _ => True

/-- A number is at most the top or beyond it. -/
theorem not_atMost_iff {top : Int} : ¬ AtMost top x ↔ Beyond top x := by
  cases x with
  | infinity | notANumber => exact ⟨fun _ => trivial, fun _ h => h⟩
  | zero => exact ⟨fun h => h trivial, fun h _ => h⟩
  | finite => exact Int.not_le

/-- The sign does not count. -/
theorem atMost_neg_iff {top : Int} : AtMost top x.neg ↔ AtMost top x := by
  cases x <;> exact Iff.rfl

/-- A number within reach of the format keeps its exponent when it is packed. -/
theorem exponent_pack_le {spec : Format} (top : Int) (htop : top ≤ topExponent spec)
    (h : AtMost top x) :
    (unpackExponent (UnpackedFloat.pack spec x)).toNat ≤
      (top + spec.exponentBias + spec.mantissaBitsWithoutImplicit).toNat := by
  have hcast : ((2 ^ spec.exponentBits : Nat) : Int) = 2 ^ spec.exponentBits := by norm_cast
  cases x with
  | infinity | notANumber => cases h
  | zero s =>
    unfold UnpackedFloat.pack
    rw [packedZero, unpackExponent_packComponents]
    exact Nat.zero_le _
  | finite s m e hm =>
    change e ≤ top at h
    rw [topExponent] at htop
    have hpow : 0 < 2 ^ spec.exponentBits := Nat.two_pow_pos _
    unfold UnpackedFloat.pack
    dsimp only
    split
    · omega
    · split
      · rw [unpackExponent_packComponents, BitVec.toNat_ofNat, Nat.mod_eq_of_lt (by omega)]
        omega
      · rw [unpackExponent_packComponents]
        exact Nat.zero_le _

/-- The top exponent is not reached. -/
theorem exponent_pack_ne {spec : Format} (h : AtMost (topExponent spec) x) :
    unpackExponent (UnpackedFloat.pack spec x) ≠ -1#_ := by
  have hpow : 2 ≤ 2 ^ spec.exponentBits := by
    simpa using Nat.pow_le_pow_right (n := 2) (by decide) spec.he
  have hcast : ((2 ^ spec.exponentBits : Nat) : Int) = 2 ^ spec.exponentBits := by norm_cast
  have hle := exponent_pack_le _ (Int.le_refl _) h
  rw [ne_eq, ← BitVec.toNat_inj, toNat_ones]
  simp only [topExponent] at hle
  omega

/-- The top exponent is reached. -/
theorem exponent_pack_eq {spec : Format} (h : Beyond (topExponent spec) x) :
    unpackExponent (UnpackedFloat.pack spec x) = -1#_ := by
  have hcast : ((2 ^ spec.exponentBits : Nat) : Int) = 2 ^ spec.exponentBits := by norm_cast
  cases x with
  | infinity s =>
    unfold UnpackedFloat.pack
    rw [packedInfinity, unpackExponent_packComponents]
  | notANumber =>
    unfold UnpackedFloat.pack packedNaN
    rw [unpackExponent_packComponents]
  | zero s => cases h
  | finite s m e hm =>
    change topExponent spec < e at h
    rw [topExponent] at h
    have hfull : 2 ^ spec.exponentBits ≤
        (e + spec.exponentBias + spec.mantissaBitsWithoutImplicit).toNat + 1 := by omega
    unfold UnpackedFloat.pack
    dsimp only
    rw [if_pos hfull, packedInfinity, unpackExponent_packComponents]

/-- A packed number is finite exactly if it is within reach of the format. -/
theorem exponent_pack_ne_iff {spec : Format} :
    unpackExponent (UnpackedFloat.pack spec x) ≠ -1#_ ↔ AtMost (topExponent spec) x := by
  constructor
  · intro h
    by_contra hbeyond
    exact h (exponent_pack_eq (not_atMost_iff.mp hbeyond))
  · exact exponent_pack_ne

/-- A leading one adds a power of two. -/
theorem toNat_one_append {width : Nat} {bits : BitVec width} :
    (1#1 ++ bits).toNat = 2 ^ width + bits.toNat := by
  rw [BitVec.toNat_append, ← Nat.shiftLeft_add_eq_or_of_lt bits.isLt, Nat.shiftLeft_eq]
  simp

/-- A mantissa has a bit. -/
theorem mantissaBits_pos (spec : Format) : 0 < spec.mantissaBits := by
  unfold Format.mantissaBits
  omega

/-- The mantissa has one bit more than is stored. -/
theorem two_pow_mantissaBits (spec : Format) :
    2 ^ spec.mantissaBits = 2 * 2 ^ spec.mantissaBitsWithoutImplicit := by
  unfold Format.mantissaBits
  rw [Nat.pow_add]

/-- A finite bit pattern is a zero or a number whose exponent is the stored one, or the least. -/
theorem unpack_of_finite {spec : Format} {bits : BitVec spec.numBits}
    (h : unpackExponent bits ≠ -1#_) :
    (∃ s, UnpackedFloat.unpack spec bits = .zero s) ∨
      ∃ s m e hm, UnpackedFloat.unpack spec bits = .finite s m e hm ∧ m < 2 ^ spec.mantissaBits ∧
        e ≤ max 1 ((unpackExponent bits).toNat : Int) -
          (spec.exponentBias + spec.mantissaBitsWithoutImplicit) := by
  have hwidth := two_pow_mantissaBits spec
  have hmantissa := (unpackMantissa bits).isLt
  unfold UnpackedFloat.unpack
  rw [if_neg h]
  by_cases hstored : unpackExponent bits = 0#_
  · have hzero : (unpackExponent bits).toNat = 0 := congrArg BitVec.toNat hstored
    rw [if_pos hstored]
    by_cases hfraction : unpackMantissa bits = 0#_
    · rw [dif_pos hfraction]
      exact .inl ⟨_, rfl⟩
    · have hpos : 0 < (unpackMantissa bits).toNat := by
        rw [Nat.pos_iff_ne_zero]
        exact fun hzero => hfraction (BitVec.eq_of_toNat_eq hzero)
      rw [dif_neg hfraction]
      exact .inr ⟨_, _, _, hpos, rfl, by omega, by omega⟩
  · rw [if_neg hstored]
    refine .inr ⟨_, _, _, ?_, rfl, ?_, by omega⟩
    all_goals
      rw [toNat_one_append]
      omega

/-- A bit pattern that stores a positive exponent is a number with its leading bit set. -/
theorem unpack_of_normal {spec : Format} {bits : BitVec spec.numBits}
    (h : unpackExponent bits ≠ -1#_) (hstored : 0 < (unpackExponent bits).toNat) :
    ∃ s m e hm, UnpackedFloat.unpack spec bits = .finite s m e hm ∧ m < 2 ^ spec.mantissaBits ∧
      2 ^ spec.mantissaBitsWithoutImplicit ≤ m ∧
      e = (unpackExponent bits).toNat - (spec.exponentBias + spec.mantissaBitsWithoutImplicit) := by
  have hwidth := two_pow_mantissaBits spec
  have hmantissa := (unpackMantissa bits).isLt
  have hzero : unpackExponent bits ≠ 0#_ := by
    intro hzero
    rw [hzero] at hstored
    cases hstored
  unfold UnpackedFloat.unpack
  rw [if_neg h, if_neg hzero]
  refine ⟨_, _, _, ?_, rfl, ?_, ?_, rfl⟩
  all_goals
    rw [toNat_one_append]
    omega

/-- A bit pattern is finite exactly if what it holds is within reach of the format. -/
theorem atMost_unpack_iff {spec : Format} {bits : BitVec spec.numBits}
    (hwidth : 2 ≤ spec.exponentBits) :
    AtMost (topExponent spec) (UnpackedFloat.unpack spec bits) ↔ unpackExponent bits ≠ -1#_ := by
  constructor
  · intro h hfull
    unfold UnpackedFloat.unpack at h
    rw [if_pos hfull] at h
    split at h
    · exact h
    · exact h
  · intro h
    have hcast : ((2 ^ spec.exponentBits : Nat) : Int) = 2 ^ spec.exponentBits := by norm_cast
    have hpow : 2 ^ 2 ≤ 2 ^ spec.exponentBits := Nat.pow_le_pow_right (by decide) hwidth
    have hlt := (unpackExponent bits).isLt
    have hne : (unpackExponent bits).toNat ≠ 2 ^ spec.exponentBits - 1 := by
      rw [← toNat_ones]
      exact fun hfull => h (BitVec.eq_of_toNat_eq hfull)
    rcases unpack_of_finite h with ⟨s, hx⟩ | ⟨s, m, e, hm, hx, -, he⟩
    · rw [hx]
      trivial
    · rw [hx]
      change e ≤ _
      rw [topExponent]
      omega

/-! ### Rounding -/

/-- A shift divides the mantissa. -/
theorem mantissa_shiftRight {em : ExtendedMantissa} {count : Nat} :
    (em >>> count).mantissa = em.mantissa / 2 ^ count := by
  induction count with
  | zero => simp [HShiftRight.hShiftRight, Nat.repeat]
  | succ count ih =>
    change (em >>> count).mantissa / 2 = _
    rw [ih, Nat.div_div_eq_div_mul, Nat.pow_succ]

/-- The mantissa is kept. -/
theorem mantissa_ofMantissaAndAccuracy {mantissa : Nat} {accuracy : Accuracy} :
    (ExtendedMantissa.ofMantissaAndAccuracy mantissa accuracy).mantissa = mantissa := by
  fun_cases ExtendedMantissa.ofMantissaAndAccuracy <;> rfl

/-- Rounding adds one at most. -/
theorem roundedMantissa_bounds (em : ExtendedMantissa) :
    em.mantissa ≤ em.roundedMantissa ∧ em.roundedMantissa ≤ em.mantissa + 1 := by
  rw [ExtendedMantissa.roundedMantissa]
  generalize em.accuracy = accuracy
  fun_cases Accuracy.roundToNearestEven em.mantissa accuracy <;> omega

/-- A bound on the exponent from above. -/
theorem totalExponent_le {mantissa bits : Nat} (exponent : Int) (hbits : 1 ≤ bits)
    (h : mantissa < 2 ^ bits) : totalExponent mantissa exponent ≤ bits + exponent := by
  have hlog : mantissa.log2 < bits := by
    by_cases hzero : mantissa = 0
    · rw [hzero, Nat.log2_zero]
      exact hbits
    · exact (Nat.log2_lt hzero).mpr h
  rw [totalExponent]
  omega

/-- A bound on the exponent from below. -/
theorem lt_totalExponent {mantissa bits : Nat} (exponent : Int) (h : 2 ^ bits ≤ mantissa) :
    bits + exponent < totalExponent mantissa exponent := by
  have hpos : mantissa ≠ 0 := Nat.pos_iff_ne_zero.mp (Nat.lt_of_lt_of_le (Nat.two_pow_pos _) h)
  have hlog : bits ≤ mantissa.log2 := (Nat.le_log2 hpos).mpr h
  rw [totalExponent]
  omega

section Shift

variable {spec : Format} {mantissa : Nat} {exponent : Int} {accuracy : Accuracy}

/-- Shifting never lowers the exponent, and stops where the format wants it. -/
theorem shiftToTargetExponent_snd :
    (shiftToTargetExponent spec mantissa exponent accuracy).2 =
      max exponent (spec.targetExponent (totalExponent mantissa exponent)) := by
  simp only [shiftToTargetExponent, shiftToExponent]
  omega

/-- The mantissa that is shifted. -/
theorem shiftToTargetExponent_fst :
    (shiftToTargetExponent spec mantissa exponent accuracy).1.mantissa =
      mantissa / 2 ^ (spec.targetExponent (totalExponent mantissa exponent) - exponent).toNat := by
  simp only [shiftToTargetExponent, shiftToExponent]
  rw [mantissa_shiftRight, mantissa_ofMantissaAndAccuracy]

/-- What a shift leaves fits into the format. -/
theorem shiftToTargetExponent_lt :
    (shiftToTargetExponent spec mantissa exponent accuracy).1.mantissa < 2 ^ spec.mantissaBits := by
  rw [shiftToTargetExponent_fst]
  apply Nat.div_lt_of_lt_mul
  rw [← Nat.pow_add]
  refine Nat.lt_of_lt_of_le Nat.lt_log2_self (Nat.pow_le_pow_right (by decide) ?_)
  simp only [Format.targetExponent, totalExponent]
  omega

/-- A number with a bit above what the shift drops keeps that bit. -/
theorem shiftToTargetExponent_pos (hpos : 0 < mantissa)
    (h : spec.minExponent < totalExponent mantissa exponent) :
    0 < (shiftToTargetExponent spec mantissa exponent accuracy).1.mantissa := by
  have hbits := mantissaBits_pos spec
  rw [shiftToTargetExponent_fst]
  refine Nat.div_pos (Nat.le_trans (Nat.pow_le_pow_right (by decide) ?_)
    (Nat.log2_self_le (Nat.pos_iff_ne_zero.mp hpos))) (Nat.two_pow_pos _)
  simp only [Format.targetExponent, totalExponent] at h ⊢
  omega

variable {sign : Sign} {top : Int}

/-- What is rounded is shifted once more, since it may have become one bit longer. -/
abbrev shiftedAgain (spec : Format) (mantissa : Nat) (exponent : Int) (accuracy : Accuracy) :
    ExtendedMantissa × Int :=
  let first := shiftToTargetExponent spec mantissa exponent accuracy
  shiftToTargetExponent spec first.1.roundedMantissa first.2 .exact

/-- A rounded number is zero or has the exponent from the second shift. -/
theorem atMost_of_shiftedAgain (h : (shiftedAgain spec mantissa exponent accuracy).2 ≤ top) :
    AtMost top (roundWithAccuracy spec sign mantissa exponent accuracy) := by
  unfold roundWithAccuracy
  dsimp only
  by_cases hzero : (shiftedAgain spec mantissa exponent accuracy).1.mantissa = 0
  · rw [dif_pos hzero]
    trivial
  · rw [dif_neg hzero]
    exact h

/-- A rounded number that is not zero has the exponent from the second shift. -/
theorem beyond_of_shiftedAgain
    (hpos : 0 < (shiftedAgain spec mantissa exponent accuracy).1.mantissa)
    (h : top < (shiftedAgain spec mantissa exponent accuracy).2) :
    Beyond top (roundWithAccuracy spec sign mantissa exponent accuracy) := by
  unfold roundWithAccuracy
  dsimp only
  rw [dif_neg (Nat.pos_iff_ne_zero.mp hpos)]
  exact h

/-- Rounding raises the exponent at most one above where the number's leading bit puts it. -/
theorem atMost_roundWithAccuracy (hmin : spec.minExponent < top) (hexponent : exponent < top)
    (htotal : totalExponent mantissa exponent - spec.mantissaBits < top) :
    AtMost top (roundWithAccuracy spec sign mantissa exponent accuracy) := by
  let first := shiftToTargetExponent spec mantissa exponent accuracy
  have hfirst : first.2 < top := by
    rw [shiftToTargetExponent_snd]
    simp only [Format.targetExponent]
    omega
  have hrounded : first.1.roundedMantissa < 2 ^ (spec.mantissaBits + 1) := by
    have hbound := (roundedMantissa_bounds first.1).2
    have hlt : first.1.mantissa < 2 ^ spec.mantissaBits := shiftToTargetExponent_lt
    omega
  have hagain : (shiftToTargetExponent spec first.1.roundedMantissa first.2 .exact).2 ≤ top := by
    have hbits := totalExponent_le first.2 (by omega) hrounded
    rw [shiftToTargetExponent_snd]
    simp only [Format.targetExponent]
    omega
  exact atMost_of_shiftedAgain hagain

/-- A number whose leading bit is beyond the format's mantissas above `top` stays beyond `top`. -/
theorem beyond_roundWithAccuracy (hmin : spec.minExponent ≤ top) (hpos : 0 < mantissa)
    (htotal : top < totalExponent mantissa exponent - spec.mantissaBits) :
    Beyond top (roundWithAccuracy spec sign mantissa exponent accuracy) := by
  let first := shiftToTargetExponent spec mantissa exponent accuracy
  have hfirst : top < first.2 := by
    rw [shiftToTargetExponent_snd]
    simp only [Format.targetExponent]
    omega
  have hrounded : 0 < first.1.roundedMantissa :=
    Nat.lt_of_lt_of_le (shiftToTargetExponent_pos hpos (by omega)) (roundedMantissa_bounds _).1
  have hagain : top < (shiftToTargetExponent spec first.1.roundedMantissa first.2 .exact).2 := by
    rw [shiftToTargetExponent_snd]
    omega
  have hkept : 0 < (shiftToTargetExponent spec first.1.roundedMantissa first.2 .exact).1.mantissa :=
    shiftToTargetExponent_pos hrounded (by rw [totalExponent]; omega)
  exact beyond_of_shiftedAgain hkept hagain

end Shift

section Scientific

variable {spec : Format} {top : Int} {bits : Nat}

/-- A quotient is rounded once. -/
theorem div_finite {s₁ s₂ : Sign} {m₁ m₂ : Nat} {e₁ e₂ : Int} {h₁ : 0 < m₁} {h₂ : 0 < m₂} :
    UnpackedFloat.div spec (.finite s₁ m₁ e₁ h₁) (.finite s₂ m₂ e₂ h₂) =
      roundWithAccuracy spec (s₁ / s₂) (divCore spec m₁ e₁ m₂ e₂).1 (divCore spec m₁ e₁ m₂ e₂).2.1
        (divCore spec m₁ e₁ m₂ e₂).2.2 := rfl

/-- The quotient that division rounds lies as far up as the numbers themselves tell. -/
theorem divCore_le (spec : Format) {m₁ m₂ : Nat} (e₁ e₂ : Int) (hbits : 1 ≤ bits)
    (h : m₁ < 2 ^ bits * m₂) :
    (divCore spec m₁ e₁ m₂ e₂).2.1 ≤ e₁ - e₂ ∧
      totalExponent (divCore spec m₁ e₁ m₂ e₂).1 (divCore spec m₁ e₁ m₂ e₂).2.1 ≤
        bits + (e₁ - e₂) := by
  simp only [divCore]
  generalize hlow : min (e₁ - e₂) _ = low
  have hle : low ≤ e₁ - e₂ := by omega
  refine ⟨hle, ?_⟩
  have hquotient : (m₁ <<< (e₁ - e₂ - low).toNat) / m₂ < 2 ^ (bits + (e₁ - e₂ - low).toNat) := by
    apply Nat.div_lt_of_lt_mul
    rw [Nat.shiftLeft_eq, Nat.pow_add, ← Nat.mul_assoc, Nat.mul_comm m₂]
    exact Nat.mul_lt_mul_of_pos_right h (Nat.two_pow_pos _)
  have htotal := totalExponent_le low (by omega) hquotient
  omega

/-- Natural numbers are rounded after they are shifted up to the format's width. -/
theorem atMost_round {m : Nat} {s : Sign} (hbits : 1 ≤ bits) (hmin : spec.minExponent < top)
    (hzero : 0 < top) (htop : bits - spec.mantissaBits < top) (h : m < 2 ^ bits) :
    AtMost top (UnpackedFloat.round spec s m 0) := by
  simp only [UnpackedFloat.round, decreaseExponent]
  generalize hshift : (0 - spec.targetExponent (totalExponent m 0)).toNat = shift
  have hshifted : m <<< shift < 2 ^ (bits + shift) := by
    rw [Nat.shiftLeft_eq, Nat.pow_add]
    exact Nat.mul_lt_mul_of_pos_right h (Nat.two_pow_pos _)
  have htotal := totalExponent_le (0 - shift) (by omega) hshifted
  exact atMost_roundWithAccuracy hmin (by omega) (by omega)

end Scientific

end TreeScript
