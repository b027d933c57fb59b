import TreeScript.Proofs.Lowering.Restoration

/-!
# Spans do not matter to lowering

Lowering looks at rules, categories, texts and the number and order of children. A tree without
its spans is lowered to the same program, and where it is rejected, only the span in the error is
lost: forgetting the spans of the tree is forgetting the spans of the errors. This is true of the
basic steps of lowering and so of every step that is built from them.
-/

namespace TreeScript

namespace Lowering

variable {α β : Type} {step twin : Lowering α} {state after : LoweringState}

/-- The step with its error at the beginning of the text. -/
def unplaced (step : Lowering α) : Lowering α := fun state =>
  (Unplaced (step state).1, (step state).2)

/-- An error is moved to the beginning of the text. -/
theorem unplaced_of_error {error : CompileError} (h : step state = (.error error, after)) :
    unplaced step state = (.error error.unplaced, after) := by
  rw [unplaced, h]
  rfl

/-- A success is as it was. -/
theorem unplaced_of_ok {result : α} (h : step state = (.ok result, after)) :
    unplaced step state = (.ok result, after) := by
  rw [unplaced, h]
  rfl

/-- After a first step, only the results that it can have count. -/
theorem unplaced_bind {next nextTwin : α → Lowering β}
    (h : ∀ result state, (step state).1 = .ok result → nextTwin result = unplaced (next result)) :
    (unplaced step >>= nextTwin) = unplaced (step >>= next) := by
  funext state
  rw [bind_apply]
  rcases hstep : step state with ⟨error | result, after⟩
  · have hboth : (step >>= next) state = (.error error, after) := by rw [bind_apply, hstep]
    rw [unplaced_of_error hstep, unplaced_of_error hboth]
  · have hboth : (step >>= next) state = next result after := by rw [bind_apply, hstep]
    rw [unplaced_of_ok hstep, unplaced, hboth]
    dsimp only
    rw [h result state (congrArg Prod.fst hstep)]
    rfl

/-- A check on the mode fails with the same error. -/
theorem unplaced_guardMode {wrong : Mode → Prop} [DecidablePred wrong] (error : CompileError)
    (next : Lowering α) :
    (do
      if wrong (← mode) then throw error.unplaced
      unplaced next) = unplaced (do
      if wrong (← mode) then throw error
      next) := by
  funext state
  have hrun := guardMode_apply wrong error next state
  rw [guardMode_apply]
  split
  · rename_i hwrong
    rw [unplaced_of_error (hrun.trans (if_pos hwrong))]
  · rename_i hright
    rw [if_neg hright] at hrun
    exact congrArg (fun outcome => (Unplaced outcome.1, outcome.2)) hrun.symm

/-- Without an open sink, appending fails with the same error. -/
theorem unplaced_emit (operation : Operation) (node : Tree) :
    emit operation node.withoutSpans = unplaced (emit operation node) := by
  funext state
  obtain ⟨sinks, modes⟩ := state
  cases sinks with
  | nil =>
    simp only [emit, Tree.malformed_withoutSpans]
    rfl
  | cons sink outer => rfl

/-- A step in a sink of its own fails as the step does. -/
theorem unplaced_collect {step : Lowering Unit} {expected : Mode}
    {post : Unit → List Operation → Prop} (kind : SinkKind) (node : Tree)
    (hmeets : Meets expected step post) :
    collect kind node.withoutSpans (unplaced step) = unplaced (collect kind node step) := by
  funext state
  obtain ⟨hmodes, hrest⟩ := hmeets { state with sinks := state.sinks.push kind }
  rcases hstep : step { state with sinks := state.sinks.push kind } with ⟨error | _, sinks, modes⟩
  · rw [unplaced_of_error (collect_of_error hstep), collect_of_error (unplaced_of_error hstep)]
  · rw [hstep] at hmodes hrest
    obtain ⟨appended, -, hsinks⟩ := hrest
    dsimp only at hmodes hsinks
    subst hmodes hsinks
    rw [unplaced_of_ok (collect_of_ok hstep), collect_of_ok (unplaced_of_ok hstep)]

/-- The same step for the tree without its spans differs in the spans of errors only. -/
theorem Built.twin_eq_unplaced {blamed : Tree → Prop} {expected : Mode}
    {post : α → List Operation → Prop} (h : Built blamed expected step twin post) :
    twin = unplaced step := by
  induction h with
  | pure _ => rfl
  | throw _ => rfl
  | bind hstep _ ih ihnext =>
    rw [ih]
    refine unplaced_bind fun result state hresult => ?_
    obtain ⟨appended, hpost⟩ := hstep.exists_post hresult
    exact ihnext result appended hpost
  | weaken _ _ ih => exact ih
  | guardMode _ _ _ ih =>
    rw [ih]
    exact unplaced_guardMode _ _
  | emit operation _ => exact unplaced_emit operation _
  | inMode _ ih =>
    rw [ih]
    rfl
  | collect kind node hstep ih =>
    rw [ih]
    exact unplaced_collect kind node hstep.meets

/-- Without its spans, a tree is visited in the same way. -/
theorem visit_withoutSpans (tree : Tree) : visit tree.withoutSpans = unplaced (visit tree) :=
  (visit_built heeded_all trivial).twin_eq_unplaced

end Lowering

/-- The program of a tree does not depend on its spans, and neither does the reason why there is
none. -/
theorem Program.ofTree_withoutSpans (root : Tree) :
    Program.ofTree root.withoutSpans = Unplaced (Program.ofTree root) := by
  change (Lowering.lowerProgram root.withoutSpans Lowering.initial).1 =
    Unplaced (Lowering.lowerProgram root Lowering.initial).1
  rcases Lowering.lowerProgram_shape root with
    ⟨elements, ending, span, rfl, hend⟩ | ⟨error, hroot, hspanless, -⟩
  · rw [Lowering.lowerProgram_node hend, Tree.withoutSpans, Tree.allWithoutSpans,
      Tree.allWithoutSpans, Tree.allWithoutSpans,
      Lowering.lowerProgram_node (ending.category?_withoutSpans.trans hend),
      Lowering.visit_withoutSpans]
    rcases hvisit : Lowering.visit elements Lowering.opened with ⟨error | result, after⟩
    · rw [Lowering.unplaced_of_error hvisit]
      rfl
    · rw [Lowering.unplaced_of_ok hvisit]
      rfl
  · rw [hroot, hspanless]
    rfl

end TreeScript
