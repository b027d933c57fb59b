import Mathlib.Data.Int.ModEq
import Mathlib.Data.Nat.Cast.Order.Basic
import TreeScript.Heap.Operator

/-!
# Arithmetic of integers

Between two integers, every operator has a result but division and remainder by zero. Sums,
differences and products are exact modulo two to the sixty-fourth. A remainder is smaller than the
divisor and has the sign of the dividend. A quotient is an integer if and only if it is exact and
in range; the one quotient that is exact and out of range is that of the least integer by minus
one, which becomes a floating-point number like those that are not exact.
-/

namespace TreeScript

namespace Value

variable {a b : Int64}

/-- Reducing an exact result to the range of integers keeps it modulo two to the sixty-fourth. -/
theorem bmod_modEq (n : Int) : n.bmod (2 ^ 64) ≡ n [ZMOD 2 ^ 64] :=
  Int.bmod_emod

/-- Zero is told by its number. -/
theorem toInt_ne_zero (h : b ≠ 0) : b.toInt ≠ 0 :=
  fun hzero => h (Int64.toInt_inj.mp hzero)

/-- The range of integers. -/
theorem inRange_iff {n : Int} : inRange n = true ↔ -2 ^ 63 ≤ n ∧ n < 2 ^ 63 := by
  rw [inRange, Bool.and_eq_true, decide_eq_true_iff, decide_eq_true_iff, Int64.toInt_minValue,
    Int64.toInt_maxValue, Int.le_sub_one_iff]

/-! ## Remainders -/

/-- What a remainder by a divisor other than zero is. -/
theorem remainder_spec (a : Int64) (h : b ≠ 0) :
    (∃ t : Int, a.toInt = b.toInt * t + (a % b).toInt) ∧ |(a % b).toInt| < |b.toInt| ∧
      ((a % b).toInt = 0 ∨ (a % b).toInt.sign = a.toInt.sign) := by
  rw [Int64.toInt_mod]
  refine ⟨⟨a.toInt.tdiv b.toInt, (Int.mul_tdiv_add_tmod a.toInt b.toInt).symm⟩, ?_, ?_⟩
  · have hlt : a.toInt.natAbs % b.toInt.natAbs < b.toInt.natAbs :=
      Nat.mod_lt _ (Int.natAbs_pos.mpr (toInt_ne_zero h))
    rw [← Int.natAbs_tmod] at hlt
    rw [Int.abs_eq_natAbs, Int.abs_eq_natAbs]
    exact_mod_cast hlt
  · by_cases hdvd : b.toInt ∣ a.toInt
    · exact .inl (Int.dvd_iff_tmod_eq_zero.mp hdvd)
    · refine .inr ?_
      rw [Int.sign_tmod, if_neg hdvd]

/-! ## Quotients -/

/-- A truncated quotient that is in range is the quotient of the machine. -/
theorem toInt_div_of_inRange (h : inRange (a.toInt.tdiv b.toInt) = true) :
    (a / b).toInt = a.toInt.tdiv b.toInt := by
  obtain ⟨hmin, hmax⟩ := inRange_iff.mp h
  rw [Int64.toInt_div]
  exact Int.bmod_eq_of_le hmin hmax

/-- There is a remainder of zero exactly if the quotient is exact and in range. -/
theorem checkedRemainder?_eq_zero_iff (h : b ≠ 0) :
    checkedRemainder? a b = some 0 ↔ b.toInt ∣ a.toInt ∧ inRange (a.toInt / b.toInt) = true := by
  have hzero : a % b = 0 ↔ b.toInt ∣ a.toInt := by
    rw [← Int64.toInt_inj, Int64.toInt_mod, Int.dvd_iff_tmod_eq_zero]
    rfl
  rw [checkedRemainder?, Option.ite_none_left_eq_some, Option.some.injEq, hzero, Bool.or_eq_true,
    decide_eq_true_iff, or_iff_right h, Bool.not_eq_true', Bool.not_eq_false, and_comm]
  exact and_congr_right fun hdvd => by rw [Int.tdiv_eq_ediv_of_dvd hdvd]

/-- There is an integer for a quotient that is exact and in range. -/
theorem divideInts_of_dvd (h : b ≠ 0) (hdvd : b.toInt ∣ a.toInt)
    (hrange : inRange (a.toInt / b.toInt) = true) :
    divideInts a b = .ok (int (a / b)) ∧ (a / b).toInt * b.toInt = a.toInt := by
  constructor
  · rw [divideInts, if_neg h, if_pos ((checkedRemainder?_eq_zero_iff h).mpr ⟨hdvd, hrange⟩)]
    rfl
  · rw [← Int.tdiv_eq_ediv_of_dvd hdvd] at hrange
    rw [toInt_div_of_inRange hrange, Int.tdiv_mul_cancel hdvd]

/-- Every other quotient is a floating-point number. -/
theorem divideInts_of_not (h : b ≠ 0)
    (hnot : ¬ (b.toInt ∣ a.toInt ∧ inRange (a.toInt / b.toInt) = true)) :
    divideInts a b = .ok (float (widen a / widen b)) := by
  rw [divideInts, if_neg h, if_neg ((checkedRemainder?_eq_zero_iff h).not.mpr hnot)]
  rfl

/-- The quotient is an integer exactly if it is exact and in range. -/
theorem exists_quotient_iff (h : b ≠ 0) :
    (∃ quotient, divideInts a b = .ok (int quotient)) ↔
      b.toInt ∣ a.toInt ∧ inRange (a.toInt / b.toInt) = true := by
  constructor
  · rintro ⟨quotient, hquotient⟩
    by_contra hnot
    rw [divideInts_of_not h hnot] at hquotient
    cases hquotient
  · rintro ⟨hdvd, hrange⟩
    exact ⟨a / b, (divideInts_of_dvd h hdvd hrange).1⟩

/-- The quotient of the least integer by minus one is out of range. -/
theorem divideInts_least :
    divideInts Int64.minValue (-1) = .ok (float (widen Int64.minValue / widen (-1))) :=
  divideInts_of_not (by decide) (by decide)

/-- The quotient as a machine computes it that stops at a divisor of zero and where the quotient is
out of range. -/
def machineQuotient? (a b : Int64) : Option Int64 :=
  if b = 0 ∨ a = Int64.minValue ∧ b = -1 then none else some (a / b)

/-- A quotient that is an integer is the exact one, and the machine does not stop at it. -/
theorem quotient_spec {quotient : Int64} (h : b ≠ 0)
    (hquotient : divideInts a b = .ok (int quotient)) :
    quotient.toInt * b.toInt = a.toInt ∧ machineQuotient? a b = some quotient := by
  obtain ⟨hdvd, hrange⟩ := (exists_quotient_iff h).mp ⟨quotient, hquotient⟩
  obtain ⟨hfound, hexact⟩ := divideInts_of_dvd h hdvd hrange
  have hrunning : ¬ (b = 0 ∨ a = Int64.minValue ∧ b = -1) := by
    rintro (hzero | ⟨rfl, rfl⟩)
    · exact h hzero
    · rw [divideInts_least] at hquotient
      cases hquotient
  rw [hfound] at hquotient
  cases hquotient
  exact ⟨hexact, if_neg hrunning⟩

/-! ## All operators -/

/-- Between two integers, an operator has a result unless it divides by zero. -/
theorem exists_result (heap : Heap) (a b : Int64) (operator : BinaryOperator) :
    (∃ value, heap.applyBinary operator (int a) (int b) = .ok value) ∨
      (operator = .div ∨ operator = .mod) ∧ b = 0 := by
  by_cases hzero : b = 0
  · cases operator with
    | div => exact .inr ⟨.inl rfl, hzero⟩
    | mod => exact .inr ⟨.inr rfl, hzero⟩
    | _ => exact .inl ⟨_, rfl⟩
  · refine .inl ?_
    cases operator with
    | div =>
      by_cases hexact : b.toInt ∣ a.toInt ∧ inRange (a.toInt / b.toInt) = true
      · exact ⟨_, (divideInts_of_dvd hzero hexact.1 hexact.2).1⟩
      · exact ⟨_, divideInts_of_not hzero hexact⟩
    | mod => exact ⟨_, if_neg hzero⟩
    | _ => exact ⟨_, rfl⟩

/-- An operator that fails exactly on a divisor of zero, with a range error there. -/
theorem fails_iff {outcome : Except Fault Value} {fault : Fault} (hkind : fault.kind = .rangeError)
    (hzero : b = 0 → outcome = .error fault) (hother : b ≠ 0 → ∃ value, outcome = .ok value) :
    (∃ cause, outcome = .error cause ∧ cause.kind = .rangeError) ↔ b = 0 := by
  constructor
  · rintro ⟨cause, hcause, -⟩
    by_contra hne
    obtain ⟨value, hvalue⟩ := hother hne
    rw [hvalue] at hcause
    cases hcause
  · intro h
    exact ⟨fault, hzero h, hkind⟩

/-- For all integers `a` and `b` and in every heap: each operator has a result, except division and
remainder where `b` is zero, which fail with a range error. Sums, differences and products agree
with the exact ones modulo two to the sixty-fourth. If `b` is not zero, the remainder differs from
`a` by a multiple of `b`, is smaller than `b` and has the sign of `a`, unless it is zero; and the
quotient is an integer exactly if `b` divides `a` and the exact quotient is in range. It is then
this quotient, at which the machine does not stop. In all other cases, the least integer by minus
one among them, it is a floating-point number. -/
theorem integer_arithmetic (heap : Heap) (a b : Int64) :
    let result (operator : BinaryOperator) := heap.applyBinary operator (.int a) (.int b)
    (∀ operator, (∃ value, result operator = .ok value) ∨
      (operator = .div ∨ operator = .mod) ∧ b = 0) ∧
    (∃ sum, result .add = .ok (.int sum) ∧ sum.toInt ≡ a.toInt + b.toInt [ZMOD 2 ^ 64]) ∧
    (∃ difference, result .sub = .ok (.int difference) ∧
      difference.toInt ≡ a.toInt - b.toInt [ZMOD 2 ^ 64]) ∧
    (∃ product, result .mul = .ok (.int product) ∧
      product.toInt ≡ a.toInt * b.toInt [ZMOD 2 ^ 64]) ∧
    ((∃ fault, result .div = .error fault ∧ fault.kind = .rangeError) ↔ b = 0) ∧
    ((∃ fault, result .mod = .error fault ∧ fault.kind = .rangeError) ↔ b = 0) ∧
    (b ≠ 0 →
      (∃ remainder, result .mod = .ok (.int remainder) ∧
        (∃ t : Int, a.toInt = b.toInt * t + remainder.toInt) ∧
        |remainder.toInt| < |b.toInt| ∧
        (remainder.toInt = 0 ∨ remainder.toInt.sign = a.toInt.sign)) ∧
      ((∃ quotient, result .div = .ok (.int quotient)) ↔
        b.toInt ∣ a.toInt ∧ -2 ^ 63 ≤ a.toInt / b.toInt ∧ a.toInt / b.toInt < 2 ^ 63) ∧
      (∀ quotient, result .div = .ok (.int quotient) →
        quotient.toInt * b.toInt = a.toInt ∧ machineQuotient? a b = some quotient) ∧
      ((∃ quotient, result .div = .ok (.int quotient)) ∨
        result .div = .ok (.float (widen a / widen b))) ∧
      (a = Int64.minValue → b = -1 → result .div = .ok (.float (widen a / widen b)))) := by
  intro result
  have hresult : ∀ operator, b ≠ 0 → ∃ value, result operator = .ok value := by
    intro operator hne
    exact (exists_result heap a b operator).resolve_right fun hzero => hne hzero.2
  refine ⟨exists_result heap a b, ?_, ?_, ?_, ?_, ?_, fun h => ⟨?_, ?_, ?_, ?_, ?_⟩⟩
  · exact ⟨a + b, rfl, Int64.toInt_add a b ▸ bmod_modEq _⟩
  · exact ⟨a - b, rfl, Int64.toInt_sub a b ▸ bmod_modEq _⟩
  · exact ⟨a * b, rfl, Int64.toInt_mul a b ▸ bmod_modEq _⟩
  · exact fails_iff rfl (fun hzero => if_pos hzero) (hresult .div)
  · exact fails_iff rfl (fun hzero => if_pos hzero) (hresult .mod)
  · exact ⟨a % b, if_neg h, remainder_spec a h⟩
  · rw [← inRange_iff]
    exact exists_quotient_iff h
  · exact fun quotient => quotient_spec h
  · by_cases hexact : b.toInt ∣ a.toInt ∧ inRange (a.toInt / b.toInt) = true
    · exact .inl ((exists_quotient_iff h).mpr hexact)
    · exact .inr (divideInts_of_not h hexact)
  · rintro rfl rfl
    exact divideInts_least

/-- The least integer and minus one: the quotient is a floating-point number and the remainder is
zero. -/
theorem integer_arithmetic_least :
    let result (operator : BinaryOperator) :=
      Heap.empty.applyBinary operator (.int Int64.minValue) (.int (-1))
    (-1 : Int64) ≠ 0 ∧
      result .div = .ok (.float (widen Int64.minValue / widen (-1))) ∧
      ∃ remainder, result .mod = .ok (.int remainder) ∧
        |remainder.toInt| < |(-1 : Int64).toInt| := by
  intro result
  have hne : (-1 : Int64) ≠ 0 := by decide
  obtain ⟨-, -, -, -, -, -, hrest⟩ := integer_arithmetic Heap.empty Int64.minValue (-1)
  obtain ⟨⟨remainder, hremainder, -, hsmall, -⟩, -, -, -, hleast⟩ := hrest hne
  exact ⟨hne, hleast rfl rfl, remainder, hremainder, hsmall⟩

end Value

end TreeScript
