import TreeScript.Proofs.Lowering.Checks

/-!
# What a step of lowering may do to its state

A step keeps the modes it finds, also when it fails. If it succeeds, it has appended operations
to the innermost sink and left the sinks below alone. If it fails with a sink open and in the
mode it is meant for, the fault lies with the tree and not with the state. Both are one statement
here, `Meets`, which also carries what is known of the result and of the appended operations.

The rules follow the way steps are put together, so that the lowering functions are treated one
at a time and never unfold one another.
-/

namespace TreeScript

/-- Append operations to the innermost sink, if there is one. -/
def Sinks.extend (sinks : Sinks) (operations : List Operation) : Sinks :=
  match sinks with
  | [] => []
  | ⟨kind, before⟩ :: outer => ⟨kind, before ++ operations⟩ :: outer

namespace Sinks

/-- To append nothing changes nothing. -/
@[simp] theorem extend_nil (sinks : Sinks) : sinks.extend [] = sinks := by
  cases sinks with
  | nil => rfl
  | cons sink outer => simp [extend]

/-- Appending twice is appending the concatenation. -/
theorem extend_extend (sinks : Sinks) (first second : List Operation) :
    (sinks.extend first).extend second = sinks.extend (first ++ second) := by
  cases sinks with
  | nil => rfl
  | cons sink outer => simp [extend]

/-- Appending neither opens nor closes a sink. -/
theorem extend_eq_nil_iff {sinks : Sinks} {operations : List Operation} :
    sinks.extend operations = [] ↔ sinks = [] := by
  cases sinks <;> simp [extend]

end Sinks

/-! ## Steps -/

namespace Lowering

variable {α β : Type} {expected : Mode}
variable {step : Lowering α} {post : α → List Operation → Prop} {error : CompileError}
  {kind : SinkKind} {node : Tree}

/-- A step keeps to its part of the state, and its result and the operations it appends are as
`post` says. A failure is the tree's fault when the step is taken in the mode it expects. -/
def Meets (expected : Mode) (step : Lowering α) (post : α → List Operation → Prop) : Prop :=
  ∀ state : LoweringState,
    (step state).2.modes = state.modes ∧
      match (step state).1 with
      | .ok result =>
        ∃ appended, post result appended ∧ (step state).2.sinks = state.sinks.extend appended
      | .error error =>
        state.sinks ≠ [] → state.modes.headD .value = expected → error.blamesState = false

/-- The step appends nothing, and its result is as `post` says. -/
abbrev Yielding (post : α → Prop) (result : α) (appended : List Operation) : Prop :=
  post result ∧ appended = []

/-- A postcondition may be weakened. -/
theorem Meets.mono {post goal : α → List Operation → Prop} (h : Meets expected step post)
    (himp : ∀ result appended, post result appended → goal result appended) :
    Meets expected step goal := by
  intro state
  obtain ⟨hmodes, hrest⟩ := h state
  refine ⟨hmodes, ?_⟩
  split at hrest
  · obtain ⟨appended, hpost, hsinks⟩ := hrest
    exact ⟨appended, himp _ _ hpost, hsinks⟩
  · exact hrest

/-- Steps in sequence append what the first one appends and then what the second one does. -/
theorem Meets.bind {next : α → Lowering β} {goal : β → List Operation → Prop}
    (h : Meets expected step post)
    (hnext : ∀ result earlier, post result earlier →
      Meets expected (next result) fun final later => goal final (earlier ++ later)) :
    Meets expected (step >>= next) goal := by
  intro state
  obtain ⟨hmodes, hrest⟩ := h state
  rw [bind_apply]
  rcases hstep : step state with ⟨error | result, after⟩
  · simp only [hstep] at hmodes hrest ⊢
    exact ⟨hmodes, hrest⟩
  · simp only [hstep] at hmodes hrest ⊢
    obtain ⟨earlier, hpost, hsinks⟩ := hrest
    obtain ⟨hmodes', hrest'⟩ := hnext result earlier hpost after
    refine ⟨hmodes'.trans hmodes, ?_⟩
    split at hrest'
    · obtain ⟨later, hgoal, hsinks'⟩ := hrest'
      refine ⟨earlier ++ later, hgoal, ?_⟩
      rw [hsinks', hsinks, Sinks.extend_extend]
    · rw [hmodes, hsinks, Ne, Sinks.extend_eq_nil_iff] at hrest'
      exact hrest'

/-- A result by itself leaves the state as it is. -/
theorem Meets.pure {result : α} {post : α → List Operation → Prop} (h : post result []) :
    Meets expected (Pure.pure result) post :=
  fun state => ⟨rfl, [], h, (Sinks.extend_nil state.sinks).symm⟩

/-- An error that is the tree's fault may be thrown. -/
theorem Meets.throw {error : CompileError} {post : α → List Operation → Prop}
    (h : error.blamesState = false) : Meets expected (MonadExcept.throw error) post :=
  fun _ => ⟨rfl, fun _ _ => h⟩

/-- A function of the result changes nothing else. -/
theorem Meets.map {f : α → β} {post : β → List Operation → Prop}
    (h : Meets expected step fun result appended => post (f result) appended) :
    Meets expected (f <$> step) post := by
  change Meets expected (step >>= fun result => Pure.pure (f result)) post
  refine h.bind fun result earlier hpost => Meets.pure ?_
  rwa [List.append_nil]

/-- An operation is appended to the innermost sink. -/
theorem Meets.emit (operation : Operation) (node : Tree) :
    Meets expected (Lowering.emit operation node) fun _ appended => appended = [operation] := by
  intro state
  obtain ⟨sinks, modes⟩ := state
  cases sinks with
  | nil => exact ⟨rfl, fun h => absurd rfl h⟩
  | cons sink outer => exact ⟨rfl, [operation], rfl, rfl⟩

/-- A step in a mode of its own leaves that mode behind. -/
theorem Meets.inMode {other : Mode} (h : Meets other step post) :
    Meets expected (Lowering.inMode other step) post := by
  intro state
  have hstep := h { state with modes := other :: state.modes }
  simp only [Lowering.inMode]
  generalize step { state with modes := other :: state.modes } = outcome at hstep ⊢
  obtain ⟨error | result, after⟩ := outcome
  · obtain ⟨hmodes, hrest⟩ := hstep
    exact ⟨congrArg List.tail hmodes, fun hopen _ => hrest hopen rfl⟩
  · obtain ⟨hmodes, hrest⟩ := hstep
    exact ⟨congrArg List.tail hmodes, hrest⟩

/-- A check on the mode, in a given state. -/
theorem guardMode_apply (wrong : Mode → Prop) [DecidablePred wrong] (error : CompileError)
    (next : Lowering α) (state : LoweringState) :
    (do
      if wrong (← mode) then MonadExcept.throw error
      next : Lowering α) state =
      if wrong (state.modes.headD .value) then (.error error, state) else next state := by
  change (if wrong (state.modes.headD .value) then _ else _ : Lowering α) state = _
  split <;> rfl

/-- A check on the mode that the expected mode passes does not count. -/
theorem Meets.guardMode {wrong : Mode → Prop} [DecidablePred wrong] {next : Lowering α}
    (hexpected : ¬ wrong expected) (h : Meets expected next post) :
    Meets expected
      (do
        if wrong (← mode) then MonadExcept.throw error
        next) post := by
  intro state
  rw [guardMode_apply]
  split
  · rename_i hwrong
    exact ⟨rfl, fun _ hmode => absurd (hmode ▸ hwrong) hexpected⟩
  · exact h state

/-- The innermost sink can be closed as what it was opened for. -/
theorem close_apply (kind : SinkKind) (operations : List Operation) (outer : Sinks)
    (modes : List Mode) (node : Tree) :
    close kind node ⟨⟨kind, operations⟩ :: outer, modes⟩ = (.ok operations, ⟨outer, modes⟩) := by
  have hpop : Sinks.pop (⟨kind, operations⟩ :: outer) kind = .ok (operations, outer) := if_pos rfl
  have hget : (get : Lowering LoweringState) ⟨⟨kind, operations⟩ :: outer, modes⟩ =
      (.ok ⟨⟨kind, operations⟩ :: outer, modes⟩, ⟨⟨kind, operations⟩ :: outer, modes⟩) := rfl
  unfold close
  rw [bind_apply, hget]
  simp only [hpop]
  rfl

/-- A step that fails in a sink of its own fails with it. -/
theorem collect_of_error {step : Lowering Unit} {state after : LoweringState}
    (h : step { state with sinks := state.sinks.push kind } = (.error error, after)) :
    Lowering.collect kind node step state = (.error error, after) := by
  change (step >>= _ : Lowering (List Operation)) { state with sinks := state.sinks.push kind } = _
  rw [bind_apply, h]

/-- What a step has appended to a sink of its own is handed out, and the state is as before. -/
theorem collect_of_ok {step : Lowering Unit} {state : LoweringState} {appended : List Operation}
    (h : step { state with sinks := state.sinks.push kind } =
      (.ok (), { state with sinks := (state.sinks.push kind).extend appended })) :
    Lowering.collect kind node step state = (.ok appended, state) := by
  change (step >>= fun _ => close kind node >>= _ : Lowering (List Operation))
    { state with sinks := state.sinks.push kind } = _
  rw [bind_apply, h]
  dsimp only [Sinks.push, Sinks.extend, List.nil_append]
  rw [bind_apply, close_apply]
  change (if state.sinks.length = state.sinks.length then _ else _ :
    Lowering (List Operation)) state = _
  rw [if_pos rfl]
  rfl

/-- What a step appends to a sink of its own is handed out, and the sinks around it stay. -/
theorem Meets.collect {step : Lowering Unit} {post : List Operation → Prop}
    (h : Meets expected step fun _ appended => post appended) :
    Meets expected (Lowering.collect kind node step) (Yielding post) := by
  intro state
  have hmeets := h { state with sinks := state.sinks.push kind }
  rcases hstep : step { state with sinks := state.sinks.push kind } with
    ⟨error | result, sinks, modes⟩
  · rw [hstep] at hmeets
    obtain ⟨hmodes, hrest⟩ := hmeets
    rw [collect_of_error hstep]
    exact ⟨hmodes, fun _ hmode => hrest (List.cons_ne_nil _ _) hmode⟩
  · rw [hstep] at hmeets
    obtain ⟨hmodes, appended, hpost, hsinks⟩ := hmeets
    dsimp only at hmodes hsinks
    subst hmodes hsinks
    rw [collect_of_ok hstep]
    exact ⟨rfl, [], ⟨hpost, rfl⟩, (Sinks.extend_nil state.sinks).symm⟩

end Lowering

end TreeScript
