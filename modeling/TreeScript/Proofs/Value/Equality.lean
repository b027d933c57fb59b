import TreeScript.Proofs.Value.Widening
import TreeScript.Value.Compare

/-!
# Equality of values

Equality of values is symmetric, every value but NaN is equal to itself, and two values that may be
compared are equal exactly if neither comes before the other. It is transitive but for one case: an
integer is compared with a floating-point number after widening, so a floating-point number is equal
to every integer that it is the nearest double of. Two different integers that share their nearest
double are both equal to it and not to each other. Such integers have more than 53 bits.
-/

namespace TreeScript

open Float.Model.UnpackedFloat (beq_iff_ne_notANumber_and_eq isNaN_iff)

/-! ### Floating-point numbers -/

section Float

variable (x y : Float)

/-- Equal doubles are the same number. -/
theorem float_beq_iff : (x == y) = true ↔ x.toModel.unpack ≠ .notANumber ∧
    y.toModel.unpack ≠ .notANumber ∧ (x.toModel.unpack = y.toModel.unpack ∨
      x.toModel.unpack = .zero .positive ∧ y.toModel.unpack = .zero .negative ∨
      x.toModel.unpack = .zero .negative ∧ y.toModel.unpack = .zero .positive) :=
  beq_iff_ne_notANumber_and_eq _ _

/-- Equality of floating-point numbers is an equivalence of those that are not NaN. -/
instance floatPartialEquivBEq : PartialEquivBEq Float where
  symm h := by
    rw [float_beq_iff] at h ⊢
    grind
  trans h hnext := by
    rw [float_beq_iff] at h hnext ⊢
    grind

/-- A double equals itself unless it is no number. -/
theorem float_beq_self : (x == x) = !x.isNaN := by
  have hnan : x.isNaN = true ↔ x.toModel.unpack = .notANumber := isNaN_iff
  rw [Bool.eq_iff_iff, float_beq_iff, Bool.not_eq_true', ← Bool.not_eq_true, hnan]
  exact ⟨fun h => h.1, fun h => ⟨h, h, .inl rfl⟩⟩

/-- Equal floating-point numbers are not ordered. -/
theorem not_lt_of_float_beq (h : (x == y) = true) : ¬ x < y := by
  intro hlt
  have heq : x.toModel.unpack.compare y.toModel.unpack = some .eq := beq_iff_eq.mp h
  have hless : x.toModel.unpack.compare y.toModel.unpack = some .lt :=
    beq_iff_eq.mp (of_decide_eq_true hlt)
  rw [heq] at hless
  cases hless

end Float

namespace Value

/-! ### Laws of equality -/

/-- Whether a value is NaN. -/
def isNaN : Value → Bool
  | float x => x.isNaN
  | _ => false

/-- Equality is symmetric. -/
theorem same_comm (a b : Value) : a.same b = b.same a := by
  cases a <;> cases b <;> simp only [same] <;> exact BEq.comm

/-- A value equals itself unless it is no number. -/
theorem same_self (a : Value) : a.same a = !a.isNaN := by
  cases a with
  | float x => exact float_beq_self x
  | _ => simp [same, isNaN]

/-- A value that is not a number is equal to itself only. -/
theorem same_iff_eq {a b : Value} (h : b.isNumber = false) : a.same b = true ↔ a = b := by
  cases a <;> cases b <;> simp_all [same, isNumber]

section

variable {a c : Value} {n : Int64} {x : Float}

/-- What is equal to an integer is the integer or a floating-point number. -/
theorem same_int_iff :
    a.same (int n) = true ↔ a = int n ∨ ∃ y, a = float y ∧ (widen n == y) = true := by
  cases a <;> simp [same]

/-- What is equal to a floating-point number is a number. -/
theorem same_float_iff : a.same (float x) = true ↔
    (∃ m, a = int m ∧ (widen m == x) = true) ∨ ∃ y, a = float y ∧ (y == x) = true := by
  cases a <;> simp [same]

end

/-- Two different integers with one nearest double, and a floating-point number between them. -/
def Blurred (a b c : Value) : Prop :=
  ∃ (m n : Int64) (x : Float), a = int m ∧ b = float x ∧ c = int n ∧ m ≠ n ∧
    nearestDouble m.toInt = nearestDouble n.toInt ∧
    2 ^ 53 ≤ m.toInt.natAbs ∧ 2 ^ 53 ≤ n.toInt.natAbs

/-- One floating-point number is equal to two integers exactly if they have the same nearest
double. -/
theorem exists_same_iff (m n : Int64) :
    (∃ x : Float, (int m).same (float x) = true ∧ (float x).same (int n) = true) ↔
      nearestDouble m.toInt = nearestDouble n.toInt := by
  rw [← widen_beq_widen_iff]
  constructor
  · rintro ⟨x, hm, hn⟩
    exact BEq.trans hm (BEq.symm hn)
  · intro h
    exact ⟨widen n, h, BEq.trans (BEq.symm h) h⟩

/-- Values equal to one integer are equal. -/
theorem same_of_same_int {a c : Value} {n : Int64} (h : a.same (int n) = true)
    (hnext : c.same (int n) = true) : a.same c = true := by
  rcases same_int_iff.mp h with rfl | ⟨x, rfl, hx⟩
  · rw [same_comm]
    exact hnext
  · rcases same_int_iff.mp hnext with rfl | ⟨y, rfl, hy⟩
    · exact h
    · exact BEq.trans (BEq.symm hx) hy

/-- Values equal to one floating-point number are equal, unless they are integers. -/
theorem same_of_same_float {a c : Value} {x : Float} (h : a.same (float x) = true)
    (hnext : c.same (float x) = true) : a.same c = true ∨ Blurred a (float x) c := by
  rcases same_float_iff.mp h with ⟨m, rfl, hm⟩ | ⟨y, rfl, hy⟩
  · rcases same_float_iff.mp hnext with ⟨n, rfl, hn⟩ | ⟨z, rfl, hz⟩
    · by_cases heq : m = n
      · rw [heq]
        exact .inl (same_self (int n))
      · have hnearest : nearestDouble m.toInt = nearestDouble n.toInt :=
          (widen_beq_widen_iff m n).mp (BEq.trans hm (BEq.symm hn))
        have hne : m.toInt ≠ n.toInt := mt Int64.toInt_inj.mp heq
        exact .inr ⟨m, n, x, rfl, rfl, rfl, heq, hnearest,
          le_natAbs_of_nearestDouble_eq hne hnearest,
          le_natAbs_of_nearestDouble_eq hne.symm hnearest.symm⟩
    · exact .inl (BEq.trans hm (BEq.symm hz))
  · rcases same_float_iff.mp hnext with ⟨n, rfl, hn⟩ | ⟨z, rfl, hz⟩
    · exact .inl (BEq.trans hn (BEq.symm hy))
    · exact .inl (BEq.trans hy (BEq.symm hz))

/-- Equality is transitive but for rounding. -/
theorem same_trans_or_blurred {a b c : Value} (h : a.same b = true) (hnext : b.same c = true) :
    a.same c = true ∨ Blurred a b c := by
  rw [same_comm] at hnext
  cases b with
  | int n => exact .inl (same_of_same_int h hnext)
  | float x => exact same_of_same_float h hnext
  | _ =>
    rw [same_iff_eq rfl] at h
    rw [h, same_comm]
    exact .inl hnext

/-- Equality fails to be transitive exactly between integers that rounding has made one. -/
theorem same_iff_not_blurred {a b c : Value} (h : a.same b = true) (hnext : b.same c = true) :
    a.same c = true ↔ ¬ Blurred a b c := by
  constructor
  · rintro hsame ⟨m, n, x, rfl, rfl, rfl, hne, -⟩
    exact hne (beq_iff_eq.mp hsame)
  · intro hclear
    exact (same_trans_or_blurred h hnext).resolve_right hclear

/-! ### Order -/

/-- Doubles compare as equal if they are. -/
theorem compareFloats?_eq_some_eq_iff (x y : Float) :
    compareFloats? x y = some .eq ↔ (x == y) = true := by
  unfold compareFloats?
  constructor
  · intro h
    split at h
    · cases h
    · split at h
      · cases h
      · exact (Option.ite_none_right_eq_some.mp h).1
  · intro h
    rw [if_neg (not_lt_of_float_beq x y h), if_neg (not_lt_of_float_beq y x (BEq.symm h)), if_pos h]

/-- Values that may be compared come in neither order exactly if they are equal. -/
theorem compare?_eq_some_eq_iff {a b : Value} (h : a.isComparable b = true) :
    a.compare? b = some .eq ↔ a.same b = true := by
  cases a with
  | int m =>
    cases b with
    | int n =>
      change some (compare m.toInt n.toInt) = some .eq ↔ (m == n) = true
      rw [Option.some_inj, compare_eq_iff_eq, Int64.toInt_inj, beq_iff_eq]
    | float y => exact compareFloats?_eq_some_eq_iff (widen m) y
    | _ => cases h
  | float x =>
    cases b with
    | int n =>
      rw [same_comm]
      exact (compareFloats?_eq_some_eq_iff x (widen n)).trans BEq.comm.congr_left
    | float y => exact compareFloats?_eq_some_eq_iff x y
    | _ => cases h
  | string s =>
    cases b with
    | string t =>
      change some (compareOfLessAndEq s t) = some .eq ↔ (s == t) = true
      rw [Option.some_inj, compareOfLessAndEq_eq_eq String.le_refl String.not_le, beq_iff_eq]
    | _ => cases h
  | _ => cases b <;> cases h

/-! ### Equality and order -/

/-- Equality of values is symmetric, and reflexive but for NaN. It is transitive except between two
different integers through a floating-point number that is the nearest double of both. On values
that may be compared it agrees with the order. -/
theorem same_equivalence_but_rounding :
    (∀ a : Value, a.same a = !a.isNaN) ∧ (∀ a b : Value, a.same b = b.same a) ∧
      (∀ a b c : Value, a.same b = true → b.same c = true →
        (a.same c = true ↔ ¬ Blurred a b c)) ∧
      (∀ m n : Int64,
        (∃ x : Float, (int m).same (float x) = true ∧ (float x).same (int n) = true) ↔
          nearestDouble m.toInt = nearestDouble n.toInt) ∧
      ∀ a b : Value, a.isComparable b = true → (a.compare? b = some .eq ↔ a.same b = true) :=
  ⟨same_self, same_comm, fun _ _ _ => same_iff_not_blurred, exists_same_iff,
    fun _ _ => compare?_eq_some_eq_iff⟩

/-- The double `2 ^ 53`. -/
def twoPow53 : Value := float (Float.ofBits 0x4340000000000000)

/-- The double `2 ^ 53` stands between two integers, and is at one place with each of them. -/
theorem same_equivalence_at_twoPow53 :
    ((int 9007199254740992).same twoPow53 = true ∧ twoPow53.same (int 9007199254740993) = true ∧
        ((int 9007199254740992).same (int 9007199254740993) = true ↔
          ¬ Blurred (int 9007199254740992) twoPow53 (int 9007199254740993))) ∧
      (int 9007199254740993).isComparable twoPow53 = true ∧
        ((int 9007199254740993).compare? twoPow53 = some .eq ↔
          (int 9007199254740993).same twoPow53 = true) :=
  ⟨⟨by decide, by decide, same_equivalence_but_rounding.2.2.1 _ _ _ (by decide) (by decide)⟩,
    by decide, same_equivalence_but_rounding.2.2.2.2 _ _ (by decide)⟩

/-- None of the three is NaN, and equality holds between neighbours only. -/
theorem same_not_transitive :
    (∀ a ∈ [int 9007199254740992, twoPow53, int 9007199254740993], a.isNaN = false) ∧
      (int 9007199254740992).same twoPow53 = true ∧
      twoPow53.same (int 9007199254740993) = true ∧
      (int 9007199254740992).same (int 9007199254740993) = false := by
  decide

end Value

end TreeScript
