/-!
# Outcomes of steps

A computation that may fail succeeds only if each of its parts does, and fails only as one of its
parts does. Proofs about checks, readers and steps on a state take their outcomes apart with these
rules, one part at a time.
-/

namespace TreeScript

variable {ε σ α β : Type}
variable {check : Except ε α} {next : α → Except ε β} {final : β} {wrong : Prop} {cause : ε}
  {step : ExceptT ε (StateM σ) α}

/-! ## Success -/

/-- A sequence of two checks succeeds exactly when both of them do. -/
theorem bind_eq_ok :
    check >>= next = .ok final ↔ ∃ result, check = .ok result ∧ next result = .ok final := by
  cases check with
  | error cause => exact ⟨fun h => (nomatch h), fun ⟨_, h, _⟩ => (nomatch h)⟩
  | ok result => exact ⟨fun h => ⟨result, rfl, h⟩, fun ⟨_, rfl, h⟩ => h⟩

/-- A test in front of a check succeeds exactly when it finds nothing wrong and the check does. -/
theorem guard_eq_ok [Decidable wrong] {result : α} :
    (do
      if wrong then MonadExcept.throw cause
      check) = .ok result ↔ ¬ wrong ∧ check = .ok result := by
  by_cases h : wrong
  · rw [if_pos h]
    exact ⟨fun hthrow => (nomatch hthrow), fun hboth => absurd h hboth.1⟩
  · rw [if_neg h]
    exact ⟨fun hcheck => ⟨h, hcheck⟩, fun hboth => hboth.2⟩

/-! ## Failure -/

/-- A check whose errors are all of an allowed sort. -/
def FailsOnly (allowed : ε → Prop) (check : Except ε α) : Prop :=
  ∀ error, check = .error error → allowed error

namespace FailsOnly

variable {allowed : ε → Prop}

/-- Success has no error. -/
theorem ok (result : α) : FailsOnly allowed (.ok result) := fun _ h => nomatch h

/-- Failing with an allowed error. -/
theorem error {cause : ε} (h : allowed cause) :
    FailsOnly allowed (.error cause : Except ε α) := by
  intro error herror
  cases herror
  exact h

/-- Checks in sequence. -/
theorem bind (h : FailsOnly allowed check) (hnext : ∀ result, FailsOnly allowed (next result)) :
    FailsOnly allowed (check >>= next) := by
  cases check with
  | error cause => exact error (h cause rfl)
  | ok result => exact hnext result

/-- A check behind a test is made only if the test finds nothing wrong. -/
theorem guard_of_not [Decidable wrong] {next : Except ε α} (hcause : allowed cause)
    (h : ¬ wrong → FailsOnly allowed next) :
    FailsOnly allowed (do
      if wrong then MonadExcept.throw cause
      next) := by
  by_cases hwrong : wrong
  · simp only [if_pos hwrong]
    exact error hcause
  · simp only [if_neg hwrong]
    exact h hwrong

/-- A test in front of a check. -/
theorem guard [Decidable wrong] {next : Except ε α} (hcause : allowed cause)
    (h : FailsOnly allowed next) :
    FailsOnly allowed (do
      if wrong then MonadExcept.throw cause
      next) :=
  guard_of_not hcause fun _ => h

end FailsOnly

/-! ## Steps on a state -/

/-- A step that is followed by another runs first, and a failure of it is final. -/
theorem bind_apply (step : ExceptT ε (StateM σ) α) (next : α → ExceptT ε (StateM σ) β) (state : σ) :
    (step >>= next) state =
      match step state with
      | (.ok result, after) => next result after
      | (.error error, after) => (.error error, after) := by
  change ExceptT.bindCont next (step state).1 (step state).2 = _
  rcases step state with ⟨_ | _, _⟩ <;> rfl

/-- A sequence of two steps succeeds exactly when the second one does from where the first one
has led. -/
theorem bind_apply_eq_ok {next : α → ExceptT ε (StateM σ) β} {state last : σ} :
    (step >>= next) state = (.ok final, last) ↔
      ∃ result after, step state = (.ok result, after) ∧ next result after = (.ok final, last) := by
  rw [bind_apply]
  rcases step state with ⟨error | result, after⟩
  · exact ⟨fun h => (nomatch h), fun ⟨_, _, h, _⟩ => (nomatch h)⟩
  · exact ⟨fun h => ⟨result, after, rfl, h⟩, fun ⟨_, _, h, hnext⟩ => by cases h; exact hnext⟩

/-! ## Measures -/

/-- One pair of measures is below another in the order that termination goes by. -/
theorem lex_iff {a b c d : Nat} :
    Prod.Lex (· < ·) (· < ·) (a, b) (c, d) ↔ a < c ∨ a ≤ c ∧ b < d := by
  rw [Prod.lex_def]
  omega

end TreeScript
