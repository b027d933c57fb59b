import Mathlib.Algebra.Order.Ring.Int
import TreeScript.Proofs.Value.IntegerArithmetic

/-!
# Powers of integers

The power of two integers is an integer where the exact power is in range, and a floating-point
number otherwise, with one exception: from an exponent of `2 ^ 32` on it is a floating-point number
even for the three bases whose powers never leave the range. The exact power is what repeated
squaring finds that stops at the first product out of range: no square and no partial product is
out of range unless the power is.
-/

namespace TreeScript

namespace Value

/-- An exact integer as a value, if it is in range. -/
def narrow? (n : Int) : Option Int64 := if inRange n then some (Int64.ofInt n) else none

/-- Integers are in range. -/
theorem inRange_toInt (value : Int64) : inRange value.toInt = true :=
  inRange_iff.mpr ⟨value.le_toInt, value.toInt_lt⟩

/-- A number narrows to its integer. -/
theorem narrow?_eq_some_iff {n : Int} {value : Int64} :
    narrow? n = some value ↔ value.toInt = n := by
  rw [narrow?, Option.ite_none_right_eq_some, Option.some_inj, inRange_iff]
  constructor
  · rintro ⟨⟨hmin, hmax⟩, rfl⟩
    exact Int64.toInt_ofInt_of_le hmin hmax
  · rintro rfl
    exact ⟨⟨value.le_toInt, value.toInt_lt⟩, Int64.ofInt_toInt value⟩

/-- An integer narrows to itself. -/
theorem narrow?_toInt (value : Int64) : narrow? value.toInt = some value :=
  narrow?_eq_some_iff.mpr rfl

/-- Out of range, nothing narrows. -/
theorem narrow?_eq_none_iff {n : Int} : narrow? n = none ↔ inRange n = false := by
  rw [narrow?, ite_eq_right_iff, ← Bool.not_eq_true]
  exact ⟨fun h hrange => Option.some_ne_none _ (h hrange), fun h hrange => absurd hrange h⟩

/-! ## The exact power -/

/-- A base other than minus one, zero and one leaves the range before its sixty-fourth power. -/
theorem not_inRange_pow {base : Int} {exponent : Nat} (hbase : 2 ≤ base.natAbs)
    (hexponent : 64 ≤ exponent) : inRange (base ^ exponent) = false := by
  have hlarge : 2 ^ 64 ≤ (base ^ exponent).natAbs := by
    rw [Int.natAbs_pow]
    calc 2 ^ 64 ≤ 2 ^ exponent := Nat.pow_le_pow_right (by decide) hexponent
      _ ≤ base.natAbs ^ exponent := Nat.pow_le_pow_left hbase exponent
  rw [← Bool.not_eq_true, inRange_iff]
  omega

/-- The bases whose powers never leave the range. -/
theorem pow_of_natAbs_le_one {base : Int} (hbase : base.natAbs ≤ 1) (exponent : Nat) :
    base ^ exponent = if exponent = 0 ∨ base = -1 ∧ exponent % 2 = 0 then 1 else base := by
  obtain rfl | rfl | rfl : base = -1 ∨ base = 0 ∨ base = 1 := by omega
  · rcases Nat.mod_two_eq_zero_or_one exponent with heven | hodd
    · rw [if_pos (.inr ⟨rfl, heven⟩), (Nat.even_iff.mpr heven).neg_one_pow]
    · rw [if_neg (by omega), (Nat.odd_iff.mpr hodd).neg_one_pow]
  · by_cases hzero : exponent = 0
    · rw [hzero, pow_zero, if_pos (.inl rfl)]
    · rw [zero_pow hzero, if_neg (by simp [hzero])]
  · rw [one_pow, ite_self]

/-- The powers of one and zero are in range. -/
theorem inRange_pow_of_natAbs_le_one {base : Int} (hbase : base.natAbs ≤ 1) (exponent : Nat) :
    inRange (base ^ exponent) = true := by
  have hpower : (base ^ exponent).natAbs ≤ 1 := by
    rw [Int.natAbs_pow]
    exact pow_le_one₀ (Nat.zero_le _) hbase
  rw [inRange_iff]
  omega

/-- The power that is looked for is the exact one. -/
theorem exactPower?_eq (base : Int) (exponent : Nat) :
    exactPower? base exponent = narrow? (base ^ exponent) := by
  change (if base.natAbs ≤ 1 then _
    else if exponent < 64 && inRange (base ^ exponent) then some (Int64.ofInt (base ^ exponent))
    else none) = _
  split
  · rename_i hbase
    rw [narrow?, if_pos (inRange_pow_of_natAbs_le_one hbase exponent),
      pow_of_natAbs_le_one hbase exponent]
    simp only [Bool.or_eq_true, Bool.and_eq_true, decide_eq_true_eq]
  · rename_i hbase
    by_cases hexponent : exponent < 64
    · simp only [hexponent, decide_true, Bool.true_and]
      rfl
    · have hrange := not_inRange_pow (by omega : 2 ≤ base.natAbs) (Nat.le_of_not_lt hexponent)
      rw [if_neg (by simp [hexponent]), narrow?_eq_none_iff.mpr hrange]

/-! ## Repeated squaring -/

/-- The product of `accumulated` and a power by repeated squaring. It stops at the first product
out of range. -/
def powerBySquaring? (accumulated base : Int64) (exponent : Nat) : Option Int64 :=
  if exponent = 0 then some accumulated
  else if exponent = 1 then narrow? (accumulated.toInt * base.toInt)
  else
    let next? :=
      if exponent % 2 = 1 then narrow? (accumulated.toInt * base.toInt) else some accumulated
    next?.bind fun next =>
      (narrow? (base.toInt * base.toInt)).bind fun square =>
        powerBySquaring? next square (exponent / 2)
termination_by exponent
decreasing_by omega

/-- A square that is out of range lies beyond both ends of it, since `2 ^ 63` is no square. -/
theorem lt_square {base : Int} (h : inRange (base * base) = false) :
    2 ^ 63 < base.natAbs * base.natAbs := by
  have hsquare : ((base.natAbs * base.natAbs : Nat) : Int) = base * base := Int.natAbs_mul_self
  rw [← Bool.not_eq_true, inRange_iff] at h
  rcases Nat.lt_or_ge base.natAbs 3037000500 with hsmall | hlarge
  · have hle := Nat.mul_self_le_mul_self (Nat.le_of_lt_succ hsmall)
    omega
  · have hle := Nat.mul_self_le_mul_self hlarge
    omega

section Step

variable {product base : Int} {count : Nat}

/-- A product that is out of range stays so when squares are multiplied in. -/
theorem not_inRange_of_product (h : inRange product = false) (hbase : base ≠ 0) :
    inRange (product * (base * base) ^ count) = false := by
  have hfactor : 1 ≤ (base * base) ^ count := pow_pos (mul_self_pos.mpr hbase) count
  rw [← Bool.not_eq_true, inRange_iff] at h ⊢
  rintro ⟨hmin, hmax⟩
  rcases Int.lt_or_le product (-2 ^ 63) with hlow | hhigh
  · have hle := Int.mul_le_mul_of_nonpos_left (by omega : product ≤ 0) hfactor
    omega
  · have hle := Int.mul_le_mul_of_nonneg_left hfactor (by omega : 0 ≤ product)
    omega

/-- Once a square is out of range, so is every product that it goes into. -/
theorem not_inRange_of_square (h : inRange (base * base) = false) (hproduct : product ≠ 0)
    (hcount : count ≠ 0) : inRange (product * (base * base) ^ count) = false := by
  have hlarge := lt_square h
  have hbase : base ≠ 0 := by
    rintro rfl
    exact absurd hlarge (by decide)
  have hfactor : 0 < (product * (base * base) ^ (count - 1)).natAbs :=
    Int.natAbs_pos.mpr (mul_ne_zero hproduct (pow_ne_zero _ (mul_self_ne_zero.mpr hbase)))
  have hle : base.natAbs * base.natAbs ≤ (product * (base * base) ^ count).natAbs := by
    rw [← pow_sub_one_mul hcount, ← mul_assoc, Int.natAbs_mul, Int.natAbs_mul base]
    exact Nat.le_mul_of_pos_left _ hfactor
  rw [← Bool.not_eq_true, inRange_iff]
  omega

end Step

/-- A power is what is multiplied in at once times a power of the square. -/
theorem mul_pow_eq (product base : Int) (exponent : Nat) :
    product * base ^ exponent =
      product * base ^ (exponent % 2) * (base * base) ^ (exponent / 2) := by
  rw [mul_assoc, ← pow_two, ← pow_mul, ← pow_add, Nat.mod_add_div]

/-- Repeated squaring finds the exact power and stops only if that is out of range. A product of
zero can only come from a base of zero. -/
theorem powerBySquaring?_eq (accumulated base : Int64) (exponent : Nat)
    (h : accumulated.toInt = 0 → base.toInt = 0) :
    powerBySquaring? accumulated base exponent =
      narrow? (accumulated.toInt * base.toInt ^ exponent) := by
  induction exponent using Nat.strong_induction_on generalizing accumulated base with
  | _ exponent ih =>
    rw [powerBySquaring?]
    split
    · rename_i hzero
      rw [hzero, pow_zero, mul_one, narrow?_toInt]
    split
    · rename_i hone
      rw [hone, pow_one]
    have hnext : (if exponent % 2 = 1 then narrow? (accumulated.toInt * base.toInt)
        else some accumulated) = narrow? (accumulated.toInt * base.toInt ^ (exponent % 2)) := by
      split
      · rename_i hodd
        rw [hodd, pow_one]
      · rename_i hodd
        rw [Nat.mod_two_ne_one.mp hodd, pow_zero, mul_one, narrow?_toInt]
    have hzero : accumulated.toInt * base.toInt ^ (exponent % 2) = 0 → base.toInt = 0 := by
      intro hproduct
      rcases mul_eq_zero.mp hproduct with haccumulated | hfactor
      · exact h haccumulated
      · exact eq_zero_of_pow_eq_zero hfactor
    simp only [hnext, mul_pow_eq accumulated.toInt base.toInt exponent]
    cases hsquare : narrow? (base.toInt * base.toInt) with
    | none =>
      rw [narrow?_eq_none_iff] at hsquare
      have hbase : base.toInt ≠ 0 := by
        intro hbase
        rw [hbase] at hsquare
        exact absurd hsquare (by decide)
      rw [narrow?_eq_none_iff.mpr
        (not_inRange_of_square hsquare (fun hproduct => hbase (hzero hproduct)) (by omega))]
      exact Option.bind_fun_none _
    | some square =>
      rw [narrow?_eq_some_iff] at hsquare
      cases hfirst : narrow? (accumulated.toInt * base.toInt ^ (exponent % 2)) with
      | none =>
        rw [narrow?_eq_none_iff] at hfirst
        have hbase : base.toInt ≠ 0 := by
          intro hbase
          rcases Nat.mod_two_eq_zero_or_one exponent with heven | hodd
          · rw [heven, pow_zero, mul_one, inRange_toInt] at hfirst
            cases hfirst
          · rw [hbase, hodd, pow_one, mul_zero] at hfirst
            exact absurd hfirst (by decide)
        rw [narrow?_eq_none_iff.mpr (not_inRange_of_product hfirst hbase)]
        rfl
      | some next =>
        rw [narrow?_eq_some_iff] at hfirst
        rw [← hfirst, ← hsquare]
        refine ih (exponent / 2) (by omega) next square fun hnone => ?_
        rw [hsquare, hzero (hfirst ▸ hnone), mul_zero]

/-! ## Powers as values -/

/-- Whether a value is the given power as well as a value can be: the power itself, or any
floating-point number if no integer in range is the power. -/
def IsPower (power : Int) : Value → Prop
  | int exact => exact.toInt = power
  | float _ => ¬ (-2 ^ 63 ≤ power ∧ power < 2 ^ 63)
  | _ => False

section Powers

variable {base exponent : Int64}

/-- Below `2 ^ 32`, the exponent is taken as it is. -/
theorem powerOfInts_of_lt (h : 0 ≤ exponent.toInt) (hlt : exponent.toInt < 2 ^ 32) :
    powerOfInts base exponent =
      (narrow? (base.toInt ^ exponent.toInt.toNat)).elim
        (float ((widen base).pow (widen exponent))) int := by
  rw [powerOfInts, if_pos ⟨h, hlt⟩, exactPower?_eq]
  cases narrow? (base.toInt ^ exponent.toInt.toNat) <;> rfl

/-- From `2 ^ 32` on, the exponent is taken as a floating-point number. -/
theorem powerOfInts_of_le (hle : 2 ^ 32 ≤ exponent.toInt) :
    powerOfInts base exponent = float ((widen base).pow (widen exponent)) := by
  rw [powerOfInts, if_neg fun hlt => absurd hlt.2 (Int.not_lt.mpr hle)]

/-- A power is in range for every exponent or leaves the range for all large ones. -/
theorem inRange_pow_iff {base : Int} {exponent : Nat} (h : 64 ≤ exponent) :
    inRange (base ^ exponent) = true ↔ |base| ≤ 1 := by
  rw [Int.abs_eq_natAbs]
  constructor
  · intro hrange
    by_contra hlarge
    rw [not_inRange_pow (by omega) h] at hrange
    cases hrange
  · intro hsmall
    exact inRange_pow_of_natAbs_le_one (by omega) exponent

/-- An integer, or else the power as a floating-point number. -/
theorem powerOfInts_int_or_float (h : 0 ≤ exponent.toInt) :
    (∃ exact, powerOfInts base exponent = int exact) ∨
      powerOfInts base exponent = float ((widen base).pow (widen exponent)) := by
  rcases Int.lt_or_le exponent.toInt (2 ^ 32) with hlt | hle
  · rw [powerOfInts_of_lt h hlt]
    cases narrow? (base.toInt ^ exponent.toInt.toNat) with
    | none => exact .inr rfl
    | some exact => exact .inl ⟨exact, rfl⟩
  · exact .inr (powerOfInts_of_le hle)

/-- The power is an integer exactly if it is in range and the exponent is below `2 ^ 32`. -/
theorem powerOfInts_isInt_iff (h : 0 ≤ exponent.toInt) :
    (∃ exact, powerOfInts base exponent = int exact) ↔
      inRange (base.toInt ^ exponent.toInt.toNat) = true ∧ exponent.toInt < 2 ^ 32 := by
  rcases Int.lt_or_le exponent.toInt (2 ^ 32) with hlt | hle
  · rw [powerOfInts_of_lt h hlt, and_iff_left hlt]
    cases hfound : narrow? (base.toInt ^ exponent.toInt.toNat) with
    | none =>
      rw [narrow?_eq_none_iff.mp hfound]
      simp
    | some exact =>
      rw [← narrow?_eq_some_iff.mp hfound, inRange_toInt]
      simp
  · rw [powerOfInts_of_le hle, iff_false_right (fun hin => absurd hin.2 (Int.not_lt.mpr hle))]
    simp

/-- The power is right except where the exponent is too large and the power in range all the
same. -/
theorem isPower_powerOfInts_iff (h : 0 ≤ exponent.toInt) :
    (powerOfInts base exponent).IsPower (base.toInt ^ exponent.toInt.toNat) ↔
      ¬ (|base.toInt| ≤ 1 ∧ 2 ^ 32 ≤ exponent.toInt) := by
  rcases Int.lt_or_le exponent.toInt (2 ^ 32) with hlt | hle
  · rw [powerOfInts_of_lt h hlt]
    refine iff_of_true ?_ (fun hlarge => absurd hlarge.2 (Int.not_le.mpr hlt))
    cases hfound : narrow? (base.toInt ^ exponent.toInt.toNat) with
    | none =>
      change ¬ _
      rw [← inRange_iff, narrow?_eq_none_iff.mp hfound]
      exact Bool.false_ne_true
    | some exact => exact narrow?_eq_some_iff.mp hfound
  · rw [powerOfInts_of_le hle, and_iff_left hle]
    change ¬ _ ↔ _
    rw [← inRange_iff, inRange_pow_iff (by omega)]

end Powers

/-- For every integer base and every integer exponent that is not negative, and in every heap, the
power has a value. It is the exact power wherever that is in range, and a floating-point number
otherwise, unless the base is minus one, zero or one and the exponent is `2 ^ 32` or more: then it
is a floating-point number though the exact power is in range. Where it is not an integer it is the
power of the two numbers as floating-point numbers. Repeated squaring, with every product checked,
finds the exact power wherever that is in range. -/
theorem integer_power (heap : Heap) (base exponent : Int64) (h : 0 ≤ exponent.toInt) :
    let power := base.toInt ^ exponent.toInt.toNat
    (∃ value, heap.applyBinary .pow (.int base) (.int exponent) = .ok value ∧
      (value.IsPower power ↔ ¬ (|base.toInt| ≤ 1 ∧ 2 ^ 32 ≤ exponent.toInt)) ∧
      ((∃ exact, value = .int exact) ↔
        (-2 ^ 63 ≤ power ∧ power < 2 ^ 63) ∧ exponent.toInt < 2 ^ 32) ∧
      ((∃ exact, value = .int exact) ∨ value = .float ((widen base).pow (widen exponent)))) ∧
    ∀ exact, powerBySquaring? 1 base exponent.toInt.toNat = some exact ↔ exact.toInt = power := by
  refine ⟨⟨powerOfInts base exponent, rfl, isPower_powerOfInts_iff h, ?_,
    powerOfInts_int_or_float h⟩, ?_⟩
  · rw [powerOfInts_isInt_iff h]
    exact and_congr_left' inRange_iff
  · intro exact
    rw [powerBySquaring?_eq 1 base _ (fun hone => absurd hone (by decide)), narrow?_eq_some_iff,
      Int64.toInt_one, one_mul]

/-- The least integer is a power of minus two. -/
theorem integer_power_least :
    0 ≤ (63 : Int64).toInt ∧
      Heap.empty.applyBinary .pow (.int (-2)) (.int 63) = .ok (.int Int64.minValue) := by
  have hpower : (-2 : Int64).toInt ^ (63 : Int64).toInt.toNat = Int64.minValue.toInt := by decide
  obtain ⟨⟨value, hvalue, hpowerIff, hintIff, -⟩, -⟩ :=
    integer_power Heap.empty (-2) 63 (by decide)
  obtain ⟨exact, rfl⟩ := hintIff.mpr ⟨by rw [hpower]; decide, by decide⟩
  have hexact : exact.toInt = _ := hpowerIff.mpr (by decide)
  rw [hpower, Int64.toInt_inj] at hexact
  exact ⟨by decide, hexact ▸ hvalue⟩

/-- Every power of one is one, but one to the power `2 ^ 32` is no integer. -/
theorem one_pow_not_exact :
    0 ≤ (4294967296 : Int64).toInt ∧
      (1 : Int64).toInt ^ (4294967296 : Int64).toInt.toNat = 1 ∧
      ∀ value, Heap.empty.applyBinary .pow (.int 1) (.int 4294967296) = .ok value →
        ¬ value.IsPower 1 := by
  refine ⟨by decide, one_pow _, ?_⟩
  intro value hvalue
  have hfloat : Heap.empty.applyBinary .pow (.int 1) (.int 4294967296) =
      .ok (.float ((widen 1).pow (widen 4294967296))) :=
    congrArg Except.ok (powerOfInts_of_le (by decide))
  rw [hfloat] at hvalue
  cases hvalue
  exact fun hout => hout (by decide)

end Value

end TreeScript
