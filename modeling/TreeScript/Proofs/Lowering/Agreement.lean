import TreeScript.Proofs.Lowering.Discipline

/-!
# Steps of lowering that agree with an optional result

What a step should do is given as an optional result: the step succeeds with it, or it is refused
if there is none. `Computes` is for steps that yield a value and append nothing, `Appends` for
steps that append operations. The rules for sequences of steps have the same shape on both sides,
so that a reading in the option monad can be followed through the lowering functions part by part.

A refusal is a failure that a tree of the grammar may meet with: a shape or a literal that is not
supported, or a repeated parameter. All other rules of well-formed trees are kept.
-/

namespace TreeScript

/-- The rejections that a tree of the grammar may meet with. -/
def CompileError.refuses : CompileError → Bool
  | unsupported _ _ _ _ => true
  | malformed _ (.duplicateParameter _) _ => true
  | malformed _ _ _ => false
  | unimplementedLiteral _ _ => true

/-- A check has the optional result, or fails with a refusal if there is none. -/
def Accords {α : Type} (check : Except CompileError α) : Option α → Prop
  | some result => check = .ok result
  | none => ∃ error, check = .error error ∧ error.refuses = true

namespace Lowering

variable {α β : Type} {expected : Mode}
variable {step : Lowering α} {next : α → Lowering β} {result : α} {outcome : Option α}
  {error : CompileError}

/-- A step from a state has the optional outcome, or fails with a refusal if there is none. -/
def Follows (step : Lowering α) (state : LoweringState) : Option (α × LoweringState) → Prop
  | some (result, after) => step state = (.ok result, after)
  | none => ∃ error after, step state = (.error error, after) ∧ error.refuses = true

/-- After a refusal, nothing else counts. -/
theorem Follows.refused {state : LoweringState} (h : Follows step state none)
    (next : α → Lowering β) : Follows (step >>= next) state none := by
  obtain ⟨error, after, hstep, hrefuses⟩ := h
  refine ⟨error, after, ?_, hrefuses⟩
  rw [bind_apply, hstep]

/-- After a result, all that counts is what follows it. -/
theorem Follows.bind {state after : LoweringState} {outcome : Option (β × LoweringState)}
    (h : step state = (.ok result, after)) (hnext : Follows (next result) after outcome) :
    Follows (step >>= next) state outcome := by
  have hrun : (step >>= next) state = next result after := by
    rw [bind_apply, h]
  cases outcome with
  | none =>
    obtain ⟨error, last, hlast, hrefuses⟩ := hnext
    exact ⟨error, last, hrun.trans hlast, hrefuses⟩
  | some final => exact hrun.trans hnext

/-- With a sink open and in the mode that is expected, a step yields the optional result and leaves
the state as it was, or refuses if there is none. -/
def Computes (expected : Mode) (step : Lowering α) (outcome : Option α) : Prop :=
  ∀ state : LoweringState, state.sinks ≠ [] → state.modes.headD .value = expected →
    Follows step state (outcome.map fun result => (result, state))

/-- With a sink open and for values, a step yields the given result and appends the optional
operations to the innermost sink, or refuses if there are none. -/
def Appends (step : Lowering α) (result : α) (outcome : Option (List Operation)) : Prop :=
  ∀ state : LoweringState, state.sinks ≠ [] → state.modes.headD .value = .value →
    Follows step state
      (outcome.map fun appended => (result, { state with sinks := state.sinks.extend appended }))

/-- A result by itself is computed. -/
theorem Computes.pure (result : α) : Computes expected (Pure.pure result) (some result) :=
  fun _ _ _ => rfl

/-- An error that refuses the tree computes nothing. -/
theorem Computes.throw (h : error.refuses = true) :
    Computes expected (MonadExcept.throw error : Lowering α) none :=
  fun state _ _ => ⟨error, state, rfl, h⟩

/-- A check computes what it accords with. -/
theorem Computes.lift {check : Except CompileError α} (h : Accords check outcome) :
    Computes expected (liftM check) outcome := by
  intro state _ _
  cases outcome with
  | none =>
    obtain ⟨error, rfl, hrefuses⟩ := h
    exact ⟨error, state, rfl, hrefuses⟩
  | some result =>
    cases h
    rfl

/-- Steps in sequence compute in sequence. -/
theorem Computes.bind {later : α → Option β} (h : Computes expected step outcome)
    (hnext : ∀ result, Computes expected (next result) (later result)) :
    Computes expected (step >>= next) (outcome >>= later) := by
  intro state hopen hmode
  have hstep := h state hopen hmode
  cases outcome with
  | none => exact hstep.refused next
  | some result => exact Follows.bind hstep (hnext result state hopen hmode)

/-- What is computed is appended. -/
theorem Computes.appends {later : α → Option (List Operation)} {final : β}
    (h : Computes .value step outcome)
    (hnext : ∀ result, Appends (next result) final (later result)) :
    Appends (step >>= next) final (outcome >>= later) := by
  intro state hopen hmode
  have hstep := h state hopen hmode
  cases outcome with
  | none => exact hstep.refused next
  | some result => exact Follows.bind hstep (hnext result state hopen hmode)

/-- Steps in sequence append what the first one appends and then what the second one does. -/
theorem Appends.bind {final : β} {first second : Option (List Operation)}
    (h : Appends step result first) (hnext : Appends (next result) final second) :
    Appends (step >>= next) final (do
      let earlier ← first
      let later ← second
      return earlier ++ later) := by
  intro state hopen hmode
  have hstep := h state hopen hmode
  cases first with
  | none => exact hstep.refused next
  | some earlier =>
    have hlater := hnext { state with sinks := state.sinks.extend earlier }
      (mt Sinks.extend_eq_nil_iff.mp hopen) hmode
    refine Follows.bind hstep ?_
    cases second with
    | none => exact hlater
    | some later =>
      simp only [Option.map_some, Sinks.extend_extend] at hlater
      exact hlater

/-- A result by itself appends nothing. -/
theorem Appends.pure (result : α) : Appends (Pure.pure result) result (some []) := by
  intro state _ _
  change _ = (Except.ok result, { state with sinks := state.sinks.extend [] })
  rw [Sinks.extend_nil]
  rfl

/-- An error that refuses the tree appends nothing. -/
theorem Appends.throw (h : error.refuses = true) :
    Appends (MonadExcept.throw error : Lowering α) result none :=
  fun state _ _ => ⟨error, state, rfl, h⟩

/-- An operation is appended to the open sink. -/
theorem Appends.emit (operation : Operation) (node : Tree) :
    Appends (Lowering.emit operation node) () (some [operation]) := by
  rintro ⟨sinks, modes⟩ hopen _
  cases sinks with
  | nil => exact absurd rfl hopen
  | cons sink outer => rfl

/-- A step that is taken for what it appends. -/
theorem Appends.andReturn {outcome : Option (List Operation)} (h : Appends step result outcome)
    (final : β) :
    Appends (step >>= fun _ => Pure.pure final) final outcome := by
  intro state hopen hmode
  have hstep := h state hopen hmode
  cases outcome with
  | none => exact hstep.refused _
  | some appended => exact Follows.bind hstep rfl

/-- The mode of a step does not change what it computes. -/
theorem Computes.inMode {other : Mode} (h : Computes other step outcome) :
    Computes expected (Lowering.inMode other step) outcome := by
  intro state hopen _
  have hstep := h { state with modes := other :: state.modes } hopen rfl
  cases outcome with
  | none =>
    obtain ⟨error, after, hrun, hrefuses⟩ := hstep
    refine ⟨error, { after with modes := after.modes.tail }, ?_, hrefuses⟩
    simp only [Lowering.inMode, hrun]
  | some result =>
    change step { state with modes := other :: state.modes } = _ at hstep
    change Lowering.inMode other step state = (.ok result, state)
    simp only [Lowering.inMode, hstep, List.tail_cons]

/-- A check on the mode that the expected mode passes does not count. -/
theorem Computes.guardMode {wrong : Mode → Prop} [DecidablePred wrong] {next : Lowering α}
    (hexpected : ¬ wrong expected) (h : Computes expected next outcome) :
    Computes expected
      (do
        if wrong (← mode) then MonadExcept.throw error
        next) outcome := by
  intro state hopen hmode
  have hmode' : mode state = (.ok expected, state) := by
    rw [← hmode]
    rfl
  refine Follows.bind hmode' ?_
  simp only [if_neg hexpected]
  exact h state hopen hmode

/-- What a step appends to a sink of its own is handed out. -/
theorem Computes.collect {kind : SinkKind} {node : Tree} {step : Lowering Unit}
    {outcome : Option (List Operation)} (h : Appends step () outcome) :
    Computes .value (Lowering.collect kind node step) outcome := by
  intro state hopen hmode
  have hstep := h { state with sinks := state.sinks.push kind } (List.cons_ne_nil _ _) hmode
  cases outcome with
  | none =>
    obtain ⟨error, after, hfails, hrefuses⟩ := hstep
    exact ⟨error, after, collect_of_error hfails, hrefuses⟩
  | some appended => exact collect_of_ok hstep

/-- A check that passes in front of a step does not count. -/
theorem lift_ok_bind (result : α) (next : α → Lowering β) :
    (liftM (Except.ok result : Except CompileError α) >>= next : Lowering β) = next result := rfl

end Lowering

end TreeScript
