import TreeScript.Proofs.Lowering.Restoration

/-!
# Statements are lowered one by one

What a step of lowering does depends on the state in two ways only: expressions look at the
innermost mode, and operations are appended to whatever stands in the innermost sink. So each step
has an effect of its own (`Uniform`), an error or a result with the operations to append, and the
effect of a list of trees is put together from the effects of its members. A program, the body of
a function and a block are lowered in this way from the nodes they are made of.
-/

namespace TreeScript

namespace Lowering

variable {α β : Type}

/-- What a step does, apart from the state it is taken in: the error it fails with, or its result
and the operations it appends. -/
abbrev Effect (α : Type) := Except CompileError (α × List Operation)

/-- A step that is taken in a state has an effect. -/
def Settles (step : Lowering α) (state : LoweringState) : Effect α → Prop
  | .ok (result, appended) =>
    step state = (.ok result, { state with sinks := state.sinks.extend appended })
  | .error error => (step state).1 = .error error

/-- With a sink open, a step has the same effect in all states of one mode. -/
def Uniform (step : Lowering α) : Prop :=
  ∀ mode, ∃ effect, ∀ state : LoweringState,
    state.sinks ≠ [] → state.modes.headD .value = mode → Settles step state effect

/-! ## Effects of steps that are put together -/

variable {step : Lowering α} {state : LoweringState} {error : CompileError} {effect : Effect α}
  {next : α → Lowering β} {rule : Rule}

/-- An error leaves some state behind. -/
theorem settles_error_iff :
    Settles step state (.error error) ↔ ∃ after, step state = (.error error, after) := by
  constructor
  · intro h
    exact ⟨(step state).2, Prod.ext h rfl⟩
  · rintro ⟨after, h⟩
    exact congrArg Prod.fst h

/-- The effect of a step in a state depends on what it does there only. -/
theorem Settles.congr {step other : Lowering α} (h : Settles step state effect)
    (hother : other state = step state) :
    Settles other state effect := by
  rcases effect with error | ⟨result, appended⟩
  · exact (congrArg Prod.fst hother).trans h
  · exact hother.trans h

/-- The outcome of a step is what its effect says. -/
theorem Settles.fst_eq (h : Settles step state effect) : (step state).1 = effect.map Prod.fst := by
  rcases effect with error | ⟨result, appended⟩
  · exact h
  · exact congrArg Prod.fst h

/-- A result by itself has no other effect. -/
theorem Settles.pure (result : α) (state : LoweringState) :
    Settles (Pure.pure result) state (.ok (result, [])) := by
  change _ = (Except.ok result, { state with sinks := state.sinks.extend [] })
  rw [Sinks.extend_nil]
  rfl

/-- A failure ends a sequence of steps. -/
theorem Settles.bind_error (h : Settles step state (.error error)) (next : α → Lowering β) :
    Settles (step >>= next) state (.error error) := by
  obtain ⟨after, hstep⟩ := settles_error_iff.mp h
  refine settles_error_iff.mpr ⟨after, ?_⟩
  rw [bind_apply, hstep]

/-- Steps in sequence append what the first one appends and then what the second one does. -/
theorem Settles.bind_ok {result : α} {earlier : List Operation} {effect : Effect β}
    (h : Settles step state (.ok (result, earlier)))
    (hnext : Settles (next result) { state with sinks := state.sinks.extend earlier } effect) :
    Settles (step >>= next) state
      (effect.map fun (final, later) => (final, earlier ++ later)) := by
  have hrun : (step >>= next) state =
      next result { state with sinks := state.sinks.extend earlier } := by
    rw [bind_apply, h]
  rcases effect with error | ⟨final, later⟩
  · exact (congrArg Prod.fst hrun).trans hnext
  · refine hrun.trans (Eq.trans hnext ?_)
    rw [Sinks.extend_extend]

/-- A step that is taken for what it appends. -/
theorem Settles.thenReturn (h : Settles step state effect) (final : β) :
    Settles (step >>= fun _ => Pure.pure final) state
      (effect.map fun (_, appended) => (final, appended)) := by
  rcases effect with error | ⟨result, appended⟩
  · exact h.bind_error _
  · have hrun : (step >>= fun _ => Pure.pure final : Lowering β) state =
        (.ok final, { state with sinks := state.sinks.extend appended }) := by
      rw [bind_apply, h]
      rfl
    exact hrun

/-- What a step appends to a sink of its own is handed out. -/
theorem Settles.collect {step : Lowering Unit} {kind : SinkKind} {node : Tree}
    {effect : Effect Unit} (h : Settles step { state with sinks := state.sinks.push kind } effect) :
    Settles (Lowering.collect kind node step) state (effect.map fun (_, body) => (body, [])) := by
  rcases effect with error | ⟨_, body⟩
  · obtain ⟨after, hstep⟩ := settles_error_iff.mp h
    exact settles_error_iff.mpr ⟨after, collect_of_error hstep⟩
  · refine (collect_of_ok h).trans ?_
    rw [Sinks.extend_nil]

namespace Uniform

/-- A result by itself has the same effect everywhere. -/
theorem pure (result : α) : Uniform (Pure.pure result) :=
  fun _ => ⟨.ok (result, []), fun state _ _ => Settles.pure result state⟩

/-- An error is the same everywhere. -/
theorem throw (error : CompileError) : Uniform (MonadExcept.throw error : Lowering α) :=
  fun _ => ⟨.error error, fun _ _ _ => rfl⟩

/-- In a sequence, only the results that occur count. -/
theorem bind (h : Uniform step)
    (hnext : ∀ result state, (step state).1 = .ok result → Uniform (next result)) :
    Uniform (step >>= next) := by
  intro mode
  obtain ⟨effect, heffect⟩ := h mode
  rcases effect with error | ⟨result, earlier⟩
  · exact ⟨.error error, fun state hopen hmode => (heffect state hopen hmode).bind_error next⟩
  · have hreached := heffect ⟨[⟨.program, []⟩], [mode]⟩ (List.cons_ne_nil _ _) rfl
    obtain ⟨later, hlater⟩ := hnext result _ hreached.fst_eq mode
    refine ⟨later.map fun (final, after) => (final, earlier ++ after), fun state hopen hmode => ?_⟩
    refine (heffect state hopen hmode).bind_ok (hlater _ ?_ hmode)
    exact mt Sinks.extend_eq_nil_iff.mp hopen

/-- A check on the mode decides alike in states of one mode. -/
theorem guardMode {wrong : Mode → Prop} [DecidablePred wrong] {next : Lowering α}
    (h : Uniform next) :
    Uniform
      (do
        if wrong (← mode) then MonadExcept.throw error
        next) := by
  intro current
  by_cases hwrong : wrong current
  · refine ⟨.error error, fun state _ hmode => settles_error_iff.mpr ⟨state, ?_⟩⟩
    rw [guardMode_apply, hmode, if_pos hwrong]
  · obtain ⟨effect, heffect⟩ := h current
    refine ⟨effect, fun state hopen hmode => ?_⟩
    have hrun := guardMode_apply wrong error next state
    rw [hmode, if_neg hwrong] at hrun
    exact (heffect state hopen hmode).congr hrun

/-- An operation is appended in every state with an open sink. -/
theorem emit (operation : Operation) (node : Tree) : Uniform (Lowering.emit operation node) := by
  refine fun _ => ⟨.ok ((), [operation]), ?_⟩
  rintro ⟨sinks, modes⟩ hopen _
  cases sinks with
  | nil => exact absurd rfl hopen
  | cons sink outer => rfl

/-- A step in another mode has its effect in that mode. -/
theorem inMode (other : Mode) (h : Uniform step) : Uniform (Lowering.inMode other step) := by
  intro mode
  obtain ⟨effect, heffect⟩ := h other
  refine ⟨effect, fun state hopen _ => ?_⟩
  have hsettles := heffect { state with modes := other :: state.modes } hopen rfl
  rcases effect with error | ⟨result, appended⟩
  · exact hsettles
  · change step { state with modes := other :: state.modes } = _ at hsettles
    change Lowering.inMode other step state = _
    simp only [Lowering.inMode, hsettles, List.tail_cons]

/-- What a step collects is the same in all states of one mode. -/
theorem collect {step : Lowering Unit} (kind : SinkKind) (node : Tree) (h : Uniform step) :
    Uniform (Lowering.collect kind node step) := by
  intro mode
  obtain ⟨effect, heffect⟩ := h mode
  refine ⟨effect.map fun (_, body) => (body, []), fun state _ hmode => Settles.collect ?_⟩
  exact heffect { state with sinks := state.sinks.push kind } (List.cons_ne_nil _ _) hmode

end Uniform

/-- Every step that is built from the basic ones has an effect of its own. -/
theorem Built.uniform {blamed : Tree → Prop} {expected : Mode} {step twin : Lowering α}
    {post : α → List Operation → Prop} (h : Built blamed expected step twin post) :
    Uniform step := by
  induction h with
  | pure _ => exact .pure _
  | throw _ => exact .throw _
  | bind hstep _ ih ihnext =>
    refine ih.bind fun result state hresult => ?_
    obtain ⟨appended, hpost⟩ := hstep.exists_post hresult
    exact ihnext result appended hpost
  | weaken _ _ ih => exact ih
  | guardMode _ _ _ ih => exact ih.guardMode
  | emit operation _ => exact .emit operation _
  | inMode _ ih => exact ih.inMode _
  | collect kind node _ ih => exact ih.collect kind node

/-! ## Lists of statements -/

/-- The operations that a tree stands for among others. -/
def operations (tree : Tree) : Except CompileError (List Operation) :=
  match visit tree opened with
  | (.ok _, after) => .ok (after.sinks.flatMap (·.operations))
  | (.error error, _) => .error error

/-- The effect of a visit tells the operations of the tree. -/
theorem operations_of_settles {tree : Tree} {effect : Effect (Option Operation)}
    (h : Settles (visit tree) opened effect) : operations tree = effect.map Prod.snd := by
  unfold operations
  rcases effect with error | ⟨result, appended⟩
  · obtain ⟨after, hvisit⟩ := settles_error_iff.mp h
    rw [hvisit]
    rfl
  · change visit tree opened = _ at h
    rw [h]
    simp [opened, Sinks.extend, Except.map]

/-- For values, a visit to a tree appends its operations in every state. -/
theorem visit_settles (tree : Tree) :
    ∃ effect, operations tree = effect.map Prod.snd ∧
      ∀ state : LoweringState, state.sinks ≠ [] → state.modes.headD .value = .value →
        Settles (visit tree) state effect := by
  obtain ⟨effect, heffect⟩ := (visit_built heeded_all trivial).uniform .value
  exact ⟨effect, operations_of_settles (heffect opened (List.cons_ne_nil _ _) rfl), heffect⟩

/-- Trees that are visited one after another append the operations of each. -/
theorem visitAll_settles (trees : List Tree) (state : LoweringState) (hopen : state.sinks ≠ [])
    (hmode : state.modes.headD .value = .value) :
    Settles (visitAll trees) state
      ((trees.mapM operations).map fun bodies => ((), bodies.flatten)) := by
  induction trees generalizing state with
  | nil =>
    rw [visitAll]
    exact Settles.pure () state
  | cons tree rest ih =>
    rw [visitAll, List.mapM_cons]
    obtain ⟨effect, hoperations, heffect⟩ := visit_settles tree
    have hvisit := heffect state hopen hmode
    rw [hoperations]
    rcases effect with error | ⟨result, earlier⟩
    · exact hvisit.bind_error _
    · have hrest := ih { state with sinks := state.sinks.extend earlier }
        (mt Sinks.extend_eq_nil_iff.mp hopen) hmode
      have hboth : Settles (visit tree >>= fun _ => visitAll rest) state _ := hvisit.bind_ok hrest
      cases hbodies : rest.mapM operations with
      | error cause =>
        rw [hbodies] at hboth
        exact hboth
      | ok bodies =>
        rw [hbodies] at hboth
        exact hboth

/-- A node that holds a list of statements is lowered for what the statements append. -/
theorem visit_list_settles (hrule : rule = .sourceElements ∨ rule = .statementList)
    (trees : List Tree) (span : Span) (state : LoweringState) (hopen : state.sinks ≠ [])
    (hmode : state.modes.headD .value = .value) :
    Settles (visit (.node rule trees span)) state
      ((trees.mapM operations).map fun bodies => (none, bodies.flatten)) := by
  have hvisit : visit (.node rule trees span) = visitAll trees >>= fun _ => Pure.pure none := by
    rcases hrule with rfl | rfl <;> rw [visit]
  have hall := (visitAll_settles trees state hopen hmode).thenReturn (none : Option Operation)
  rw [hvisit]
  cases hbodies : trees.mapM operations with
  | error error =>
    rw [hbodies] at hall
    exact hall
  | ok bodies =>
    rw [hbodies] at hall
    exact hall

/-- The operations of a list of statements are those of its members, in order. -/
theorem operations_list (hrule : rule = .sourceElements ∨ rule = .statementList) (trees : List Tree)
    (span : Span) :
    operations (.node rule trees span) = List.flatten <$> trees.mapM operations := by
  rw [operations_of_settles
    (visit_list_settles hrule trees span opened (List.cons_ne_nil _ _) rfl)]
  cases trees.mapM operations <;> rfl

/-- What a list of statements appends to a sink of its own are the operations of its members. -/
theorem collect_list (hrule : rule = .sourceElements ∨ rule = .statementList) (trees : List Tree)
    (span : Span) (kind : SinkKind) (node : Tree) (sinks : Sinks) (modes : List Mode) :
    (collect kind node (do let _ ← visit (.node rule trees span)) ⟨sinks, .value :: modes⟩).1 =
      List.flatten <$> trees.mapM operations := by
  have hlist := visit_list_settles hrule trees span ⟨sinks.push kind, .value :: modes⟩
    (List.cons_ne_nil _ _) rfl
  have hcollect : Settles
      (collect kind node (do let _ ← visit (.node rule trees span))) ⟨sinks, .value :: modes⟩ _ :=
    (hlist.thenReturn ()).collect
  rw [hcollect.fst_eq]
  cases trees.mapM operations <;> rfl

/-- A program consists of the operations of its elements. -/
theorem ofTree_eq_operations (elements : Tree) (text : String) (ending span : Span) :
    Program.ofTree (.node .program [elements, .leaf .endOfInput text ending] span) =
      Program.mk <$> operations elements := by
  change (lowerProgram _ initial).1 = _
  rw [lowerProgram_node rfl]
  unfold operations
  rcases visit elements opened with ⟨error | result, after⟩ <;> rfl

end Lowering

/-! ## Programs, bodies of functions and blocks -/

/-- The tree of a program with the given elements. The spans are those of the program, of the list
of its elements and of the end of the input. -/
def Tree.ofElements (elements : List Tree) (spans : Span × Span × Span) : Tree :=
  .node .program
    [.node .sourceElements elements spans.2.1, .leaf .endOfInput "" spans.2.2] spans.1

/-- A list of statements between braces, with the spans of the three parts. -/
def Tree.inBraces (rule : Rule) (statements : List Tree) (spans : Span × Span × Span) : List Tree :=
  [.leaf .punctuator "\x7b" spans.1, .node rule statements spans.2.1,
    .leaf .punctuator "\x7d" spans.2.2]

namespace Lowering

/-- The body of a function is lowered statement by statement. -/
theorem functionBody_inBraces (statements : List Tree) (spans : Span × Span × Span) (span : Span)
    (sinks : Sinks) (modes : List Mode) :
    (functionBody (.node .functionBody (Tree.inBraces .sourceElements statements spans) span)
      ⟨sinks, .value :: modes⟩).1 = List.flatten <$> statements.mapM operations := by
  rw [Tree.inBraces, functionBody]
  exact collect_list (.inl rfl) statements _ _ _ sinks modes

/-- A block is lowered statement by statement. -/
theorem blockBody_inBraces (node : Tree) (statements : List Tree) (spans : Span × Span × Span)
    (sinks : Sinks) (modes : List Mode) :
    (blockBody node (Tree.inBraces .statementList statements spans) ⟨sinks, .value :: modes⟩).1 =
      List.flatten <$> statements.mapM operations := by
  rw [Tree.inBraces, blockBody]
  exact collect_list (.inr rfl) statements _ _ _ sinks modes

end Lowering

namespace Program

open Lowering (operations functionBody blockBody)

/-- The body of a program consists of the operations of its elements, in order. -/
theorem body_ofTree_ofElements (elements : List Tree) (spans : Span × Span × Span) :
    body <$> ofTree (.ofElements elements spans) = List.flatten <$> elements.mapM operations := by
  rw [Tree.ofElements, Lowering.ofTree_eq_operations, Lowering.operations_list (.inl rfl)]
  cases elements.mapM operations <;> rfl

/-- A program of one element has the operations of the element. -/
theorem body_ofTree_singleton (spans : Span × Span × Span) (element : Tree) :
    body <$> ofTree (.ofElements [element] spans) = operations element := by
  rw [body_ofTree_ofElements, List.mapM_cons]
  cases operations element with
  | error error => rfl
  | ok body => simp

/-- Elements of any shapes are lowered one by one. The body of a program is that of the programs
with one of the elements each, one after the other, and where some of these are rejected, the
program is rejected with the error of the first. The nodes in the body of a function and in a
block are lowered in the same way, whatever is open around them. -/
theorem statements_lowered_one_by_one (elements : List Tree) (spans alone : Span × Span × Span) :
    let bodies := elements.mapM fun element => body <$> ofTree (.ofElements [element] alone)
    body <$> ofTree (.ofElements elements spans) = List.flatten <$> bodies ∧
      ∀ (around : Span) (node : Tree) (sinks : Sinks) (modes : List Mode),
        (functionBody (.node .functionBody (Tree.inBraces .sourceElements elements spans) around)
          ⟨sinks, .value :: modes⟩).1 = List.flatten <$> bodies ∧
        (blockBody node (Tree.inBraces .statementList elements spans)
          ⟨sinks, .value :: modes⟩).1 = List.flatten <$> bodies := by
  intro bodies
  have hbodies : bodies = elements.mapM operations :=
    congrArg (elements.mapM ·) (funext (body_ofTree_singleton alone))
  rw [hbodies]
  refine ⟨body_ofTree_ofElements elements spans, fun around node sinks modes => ⟨?_, ?_⟩⟩
  · exact Lowering.functionBody_inBraces elements spans around sinks modes
  · exact Lowering.blockBody_inBraces node elements spans sinks modes

end Program

end TreeScript
