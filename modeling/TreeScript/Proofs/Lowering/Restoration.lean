import TreeScript.Proofs.Lowering.Built

/-!
# Lowering restores its state

Whatever tree is visited, the modes are those from before, also after a failure, and a success has
done nothing but append to the innermost sink, or nothing at all where it yields a value. So a
whole program is lowered without the checks on the state ever failing: every rejection of a tree
is a rejection of the tree. For a tree of two parts, the program is what its elements append to an
empty sink.
-/

namespace TreeScript

namespace Lowering

/-- The state in which the elements of a program are lowered. -/
def opened : LoweringState := ⟨[⟨.program, []⟩], [.value]⟩

/-- A visit keeps the modes. If it succeeds, it extends the innermost sink at its end, and not at
all if there is a value. -/
theorem visit_extends (tree : Tree) (state : LoweringState) :
    (visit tree state).2.modes = state.modes ∧
      ∀ result, (visit tree state).1 = .ok result →
        ∃ appended, (visit tree state).2.sinks = state.sinks.extend appended ∧
          (result.isSome → appended = []) := by
  obtain ⟨hmodes, hrest⟩ := visit_emits tree state
  refine ⟨hmodes, ?_⟩
  intro result hresult
  rw [hresult] at hrest
  obtain ⟨appended, hemitted, hsinks⟩ := hrest
  refine ⟨appended, hsinks, ?_⟩
  cases result with
  | none => simp
  | some operation => exact fun _ => hemitted.2

/-- The elements of a program, once lowered, leave one sink open and the modes as they were. -/
theorem visit_opened {elements : Tree} {result : Option Operation} {after : LoweringState}
    (h : visit elements opened = (.ok result, after)) :
    ∃ appended, after = ⟨[⟨.program, appended⟩], [.value]⟩ := by
  obtain ⟨hmodes, hextends⟩ := visit_extends elements opened
  rw [h] at hmodes hextends
  obtain ⟨appended, hsinks, -⟩ := hextends result rfl
  obtain ⟨sinks, modes⟩ := after
  simp only [opened, Sinks.extend, List.nil_append] at hmodes hsinks
  subst hmodes hsinks
  exact ⟨appended, rfl⟩

/-- The program of a tree is what its elements append to an empty sink. -/
theorem lowerProgram_node {elements ending : Tree} {span : Span}
    (hend : ending.category? = some .endOfInput) :
    (lowerProgram (.node .program [elements, ending] span) initial).1 =
      match visit elements opened with
      | (.ok _, after) => .ok ⟨after.sinks.flatMap (·.operations)⟩
      | (.error error, _) => .error error := by
  unfold lowerProgram
  rw [if_neg (by simp [Tree.rule?])]
  dsimp only [Tree.children]
  rw [if_neg (by simp [hend])]
  change (((visit elements >>= _ : Lowering Program)) opened).1 = _
  rw [bind_apply]
  rcases hvisit : visit elements opened with ⟨error | result, after⟩
  · rfl
  · obtain ⟨appended, rfl⟩ := visit_opened hvisit
    dsimp only
    rw [bind_apply, close_apply]
    simp
    rfl

/-- A root that is not a program of two parts with the end of the input behind is rejected for what
it is, wherever it stands in the text. -/
theorem lowerProgram_shape (root : Tree) :
    (∃ elements ending span, root = .node .program [elements, ending] span ∧
      ending.category? = some .endOfInput) ∨
      ∃ error, (lowerProgram root initial).1 = .error error ∧
        (lowerProgram root.withoutSpans initial).1 = .error error.unplaced ∧
          error.blamesState = false := by
  unfold lowerProgram
  rw [Tree.rule?_withoutSpans, Tree.malformed_withoutSpans]
  by_cases hrule : root.rule? ≠ some .program
  · rw [if_pos hrule, if_pos hrule]
    exact .inr ⟨_, rfl, rfl, rfl⟩
  rw [if_neg hrule, if_neg hrule]
  rcases root with ⟨rule, children, span⟩ | ⟨category, text, span⟩
  · obtain rfl : rule = .program := by simpa [Tree.rule?] using hrule
    rcases children with _ | ⟨elements, _ | ⟨ending, _ | ⟨extra, rest⟩⟩⟩
    · exact .inr ⟨_, rfl, rfl, rfl⟩
    · exact .inr ⟨_, rfl, rfl, rfl⟩
    · by_cases hend : ending.category? ≠ some .endOfInput
      · simp only [Tree.children, Tree.withoutSpans, Tree.allWithoutSpans,
          Tree.category?_withoutSpans, Tree.malformed_withoutSpans, if_pos hend]
        exact .inr ⟨_, rfl, rfl, rfl⟩
      · exact .inl ⟨elements, ending, span, rfl, by simpa using hend⟩
    · refine .inr ⟨_, rfl, ?_, rfl⟩
      rw [← Tree.unsupported_withoutSpans]
      rfl
  · exact absurd (by simp [Tree.rule?]) hrule

/-- No tree is rejected for the state that lowering is in. -/
theorem lowerProgram_blamesState {root : Tree} {error : CompileError}
    (h : (lowerProgram root initial).1 = .error error) : error.blamesState = false := by
  rcases lowerProgram_shape root with
    ⟨elements, ending, span, rfl, hend⟩ | ⟨other, hother, -, hblames⟩
  · rw [lowerProgram_node hend] at h
    obtain ⟨-, hrest⟩ := visit_emits elements opened
    rcases hvisit : visit elements opened with ⟨cause | result, after⟩
    · simp only [hvisit, Except.error.injEq] at h hrest
      rw [← h]
      exact hrest (List.cons_ne_nil _ _) rfl
    · simp [hvisit] at h
  · rw [hother, Except.error.injEq] at h
    rw [← h]
    exact hblames

/-- The body of a lowered program is made of statements. -/
theorem lowerProgram_areStatements {root : Tree} {program : Program}
    (h : (lowerProgram root initial).1 = .ok program) :
    Operation.AreStatements program.body := by
  rcases lowerProgram_shape root with ⟨elements, ending, span, rfl, hend⟩ | ⟨other, hother, -⟩
  · rw [lowerProgram_node hend] at h
    obtain ⟨-, hrest⟩ := visit_emits elements opened
    rcases hvisit : visit elements opened with ⟨cause | result, after⟩
    · simp [hvisit] at h
    · rw [hvisit] at h hrest
      obtain ⟨appended, hemitted, hsinks⟩ := hrest
      dsimp only at h hsinks
      rw [hsinks] at h
      cases h
      simpa [opened, Sinks.extend] using areStatements_of_emitted hemitted
  · rw [hother] at h
    cases h

/-- A visit, to a tree of any shape and with a sink open, keeps all modes, also when it fails, and
all sinks below the innermost. If it succeeds, either it yields a value and the innermost sink is
as it was, or it yields none and that sink is longer at its end. So lowering a whole tree never
fails for what its sinks and modes are. -/
theorem visit_restores_state :
    (∀ tree kind before outer modes,
      let outcome := visit tree ⟨⟨kind, before⟩ :: outer, .value :: modes⟩
      outcome.2.modes = .value :: modes ∧
        ∀ result, outcome.1 = .ok result →
          ∃ appended, outcome.2.sinks = ⟨kind, before ++ appended⟩ :: outer ∧
            (result.isSome → appended = [])) ∧
      ∀ root rule cause span, Program.ofTree root = .error (.malformed rule cause span) →
        cause ≠ .stateNotRestored ∧ cause ≠ .sinksNotRestored ∧ (∀ error, cause ≠ .sink error) ∧
          cause ≠ .valueInTargetMode ∧ cause ≠ .targetOutsideMode := by
  constructor
  · intro tree kind before outer modes
    exact visit_extends tree ⟨⟨kind, before⟩ :: outer, .value :: modes⟩
  · intro root rule cause span h
    have hblames : cause.blamesState = false := lowerProgram_blamesState h
    refine ⟨?_, ?_, fun error => ?_, ?_, ?_⟩ <;> rintro rfl <;> cases hblames

/-- The tree of the block `{ x; y++; }`. -/
def steppingBlock : Tree :=
  let at0 : Span := Span.point 0
  let name (text : String) : Tree :=
    .node .singleExpression [.node .identifier [.leaf .identifier text at0] at0] at0
  let statement (expression : Tree) : Tree :=
    .node .statement [.node .expressionStatement
      [.node .expressionSequence [expression] at0, .node .eos [] at0] at0] at0
  .node .block
    [.leaf .punctuator "\x7b" at0,
      .node .statementList
        [statement (name "x"),
          statement (.node .singleExpression [name "y", .leaf .punctuator "++" at0] at0)] at0,
      .leaf .punctuator "\x7d" at0] at0

/-- Inside a function, that block is appended to what the function has so far. -/
theorem visit_restores_state_at_block :
    let earlier : Operation := .giveBack (.literal .null)
    ∃ after, visit steppingBlock ⟨[⟨.function, [earlier]⟩, ⟨.program, []⟩], [.value]⟩ =
        (.ok none, after) ∧ after.modes = [.value] ∧
      ∃ appended, after.sinks = [⟨.function, [earlier] ++ appended⟩, ⟨.program, []⟩] := by
  intro earlier
  have hrun : visit steppingBlock ⟨[⟨.function, [earlier]⟩, ⟨.program, []⟩], [.value]⟩ =
      (.ok none, ⟨[⟨.function,
        [earlier, .block [.getVariable "x", (Target.named "y").stepAfter .add]]⟩,
        ⟨.program, []⟩], [.value]⟩) := by
    simp only [steppingBlock, visit, blockBody, visitAll, visitInner, lowerExpressionStatement,
      value, lowerSequence, lowerExpression, primary, lowerPair, target, targetShape]
    rfl
  have hkept := visit_restores_state.1 steppingBlock .function [earlier] [⟨.program, []⟩] []
  rw [hrun] at hkept
  obtain ⟨appended, hsinks, -⟩ := hkept.2 none rfl
  exact ⟨_, hrun, hkept.1, appended, hsinks⟩

end Lowering

/-- Whatever tree a program comes from, its body is made of statements. -/
theorem Program.areStatements_of_ofTree {root : Tree} {program : Program}
    (h : Program.ofTree root = .ok program) : Operation.AreStatements program.body :=
  Lowering.lowerProgram_areStatements h

end TreeScript
