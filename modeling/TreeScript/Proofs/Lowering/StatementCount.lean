import TreeScript.Proofs.Lowering.Readback

/-!
# How many operations a statement appends

What a tree appends to the innermost sink, if it is lowered at all, can be counted without lowering
it: one operation for each declaration, expression, return, block and conditional that stands in a
list of statements, and none for what has a value. A node that wraps a statement counts as what it
wraps. So a statement of the grammar appends one operation, and an empty one none.

The count also tells what happens to trees that the grammar does not have. A statement that wraps
an expression without its ending is accepted and appends nothing, and one that wraps a list appends
as many operations as the list. A return heeds its parts by their number: the expression is the
part between the word and the ending, and in a return of two parts the second is taken for the
ending, whatever it is.
-/

namespace TreeScript

/-- The rules of statements that stand for an operation. -/
def Rule.isActive : Rule → Bool
  | variableStatement | expressionStatement | returnStatement | functionDeclaration | block
  | ifStatement => true
  | _ => false

namespace Tree

mutual

/-- How many operations a tree appends when it is lowered. -/
def statementCount : Tree → Nat
  | leaf _ _ _ => 0
  | node rule children _ =>
    match rule with
    | .sourceElements | .statementList | .sourceElement | .statement => statementCounts children
    | rule => if rule.isActive then 1 else 0

/-- How many operations several trees append. -/
def statementCounts : List Tree → Nat
  | [] => 0
  | tree :: rest => statementCount tree + statementCounts rest

end

/-- A declaration, expression, return, block or conditional counts one. -/
theorem statementCount_of_isActive {tree : Tree} {rule : Rule} (hrule : tree.rule? = some rule)
    (hactive : rule.isActive = true) : tree.statementCount = 1 := by
  cases tree with
  | leaf => cases hrule
  | node found children span =>
    cases hrule
    rw [statementCount, if_pos hactive]
    all_goals
      rintro rfl
      cases hactive

end Tree

namespace Lowering

/-! ## Every visit keeps to the count -/

/-- A step that appends the given number of operations. -/
abbrev AppendsCount {α : Type} (step : Lowering α) (count : Nat) : Prop :=
  Meets .value step fun _ appended => appended.length = count

/-- The count is kept when the result is dropped. -/
theorem AppendsCount.thenNone {step : Lowering Unit} {count : Nat} (h : AppendsCount step count) :
    AppendsCount (do step; return none : Lowering (Option Operation)) count := by
  refine h.bind fun _ earlier hearlier => .pure ?_
  rwa [List.append_nil]

section

variable {blamed : Tree → Prop} {step twin : Lowering Unit}

/-- A node that is lowered to one statement. -/
theorem count_of_writingOne (h : Built blamed .value step twin WritingOne) :
    AppendsCount (do step; return none : Lowering (Option Operation)) 1 := by
  refine AppendsCount.thenNone (h.meets.mono ?_)
  rintro _ _ ⟨operation, -, rfl⟩
  rfl

/-- A node that is lowered to a value. -/
theorem count_of_yielding {step twin : Lowering Operation} {post : Operation → Prop}
    (h : Built blamed .value step twin (Yielding post)) : AppendsCount (some <$> step) 0 := by
  refine .map (h.meets.mono ?_)
  rintro _ _ ⟨-, rfl⟩
  rfl

end

mutual

/-- A visit appends as many operations as are counted. -/
theorem visit_count (tree : Tree) : AppendsCount (visit tree) tree.statementCount := by
  rw [visit.eq_def]
  split
  · exact .throw rfl
  · rename_i rule children span
    have hvisits := visit_built_below heeded_all (sizeOf (Tree.node rule children span))
    have hnode : Below (fun _ => True) _ (.node rule children span) :=
      ⟨trivial, Nat.lt_succ_self _⟩
    have hplain := hnode.plain heeded_all
    dsimp only
    split
    · exact (visitAll_count children).thenNone
    · exact (visitAll_count children).thenNone
    · exact (visitInner_count _ children).thenNone
    · exact (visitInner_count _ children).thenNone
    · exact count_of_writingOne (lowerVariable_built hvisits heeded_all hnode)
    · exact count_of_writingOne (lowerExpressionStatement_built hvisits heeded_all hnode)
    · exact count_of_writingOne (lowerReturn_built hvisits heeded_all hnode)
    · exact count_of_writingOne (lowerFunction_built hvisits heeded_all trivial (hplain rfl))
    · refine (blockBody_built hvisits heeded_all hnode).meets.bind ?_
      rintro body _ ⟨-, rfl⟩
      refine AppendsCount.thenNone ((Meets.emit (.block body) _).mono ?_)
      rintro _ _ rfl
      rfl
    · exact count_of_writingOne (lowerConditional_built hvisits heeded_all trivial (hplain rfl))
    · exact .pure rfl
    · exact count_of_yielding (lowerSequence_built hvisits trivial (hplain rfl))
    · exact count_of_yielding (lowerExpression_built hvisits heeded_all trivial (hplain rfl))
    · exact Built.meets (.check (Tree.checked_literal heeded_all trivial rfl) fun _ _ => .pure rfl)
    · exact Built.meets
        (.check (Tree.checked_numericLiteral heeded_all trivial rfl) fun _ _ => .pure rfl)
    · exact count_of_yielding (lowerArray_built hvisits heeded_all hnode)
    · exact Built.meets
        (.check (Tree.checked_identifierName heeded_all trivial) fun _ _ => .pure rfl)
    · exact count_of_yielding (innerValue_built hvisits trivial (hplain rfl))
    · exact count_of_yielding (innerValue_built hvisits trivial (hplain rfl))
    · exact .throw rfl
termination_by (sizeOf tree, 0)
decreasing_by all_goals subst_vars; simp only [lex_iff, Tree.node.sizeOf_spec]; omega

/-- Visits to several trees append the sum. -/
theorem visitAll_count (trees : List Tree) :
    AppendsCount (visitAll trees) (Tree.statementCounts trees) := by
  rw [visitAll.eq_def]
  split
  · exact .pure rfl
  · rename_i tree rest
    refine (visit_count tree).bind fun _ earlier hearlier => (visitAll_count rest).mono ?_
    intro _ later hlater
    rw [List.length_append, hearlier, hlater, Tree.statementCounts]
termination_by (sizeOf trees, 0)
decreasing_by all_goals subst_vars; simp only [lex_iff, List.cons.sizeOf_spec]; omega

/-- A wrapper appends as many as what it wraps. -/
theorem visitInner_count (node : Tree) (children : List Tree) :
    AppendsCount (visitInner node children) (Tree.statementCounts children) := by
  rw [visitInner.eq_def]
  split
  · rename_i inner
    exact .map (visit_count inner)
  · exact .throw rfl
termination_by (sizeOf children, 0)
decreasing_by all_goals subst_vars; simp only [lex_iff, List.cons.sizeOf_spec]; omega

end

/-! ## Statements -/

section

variable {children : List Tree} {span : Span} {state after : LoweringState}
  {result : Option Operation}

/-- A statement is lowered as the one tree that it wraps. -/
theorem visit_of_statement
    (h : visit (.node .statement children span) state = (.ok result, after)) :
    ∃ inner found, children = [inner] ∧ visit inner state = (.ok found, after) := by
  rw [visit.eq_def] at h
  obtain ⟨_, _, hinner, h⟩ := bind_apply_eq_ok.mp h
  cases h
  rw [visitInner.eq_def] at hinner
  split at hinner
  · rename_i inner
    obtain ⟨found, _, hvisit, hinner⟩ := bind_apply_eq_ok.mp hinner
    cases hinner
    exact ⟨inner, found, rfl, hvisit⟩
  · cases hinner

variable {kind : SinkKind} {before : List Operation} {outer : Sinks} {modes : List Mode}
  {keyword sequence ending : Tree}

/-- A return of three parts gives back the value of the second. -/
theorem visit_return_value
    (h : visit (.node .returnStatement [keyword, sequence, ending] span)
      ⟨⟨kind, before⟩ :: outer, modes⟩ = (.ok result, after)) :
    ∃ operation,
      value sequence ⟨⟨kind, before⟩ :: outer, modes⟩ =
        (.ok operation, ⟨⟨kind, before⟩ :: outer, modes⟩) ∧
      after = ⟨⟨kind, before ++ [.giveBack operation]⟩ :: outer, modes⟩ := by
  rw [visit.eq_def] at h
  obtain ⟨_, _, hreturn, h⟩ := bind_apply_eq_ok.mp h
  cases h
  rw [lowerReturn.eq_def] at hreturn
  obtain ⟨_, _, hkeyword, hreturn⟩ := bind_apply_eq_ok.mp hreturn
  obtain ⟨-, rfl⟩ := lift_eq_ok hkeyword
  obtain ⟨_, _, hrule, hreturn⟩ := bind_apply_eq_ok.mp hreturn
  obtain ⟨-, rfl⟩ := lift_eq_ok hrule
  obtain ⟨operation, _, hvalue, hreturn⟩ := bind_apply_eq_ok.mp hreturn
  cases state_of_value hvalue
  cases hreturn
  exact ⟨operation, hvalue, rfl⟩

/-- A return of two parts gives back null, whatever the second part is. -/
theorem visit_return_null
    (h : visit (.node .returnStatement [keyword, ending] span)
      ⟨⟨kind, before⟩ :: outer, modes⟩ = (.ok result, after)) :
    after = ⟨⟨kind, before ++ [.giveBack (.literal .null)]⟩ :: outer, modes⟩ := by
  rw [visit.eq_def] at h
  obtain ⟨_, _, hreturn, h⟩ := bind_apply_eq_ok.mp h
  cases h
  rw [lowerReturn.eq_def] at hreturn
  obtain ⟨_, _, hkeyword, hreturn⟩ := bind_apply_eq_ok.mp hreturn
  obtain ⟨-, rfl⟩ := lift_eq_ok hkeyword
  cases hreturn
  rfl

end

/-- A statement of any shape that is lowered with a sink open, in whatever mode, wraps one tree and
appends to the innermost sink as many operations as are counted in that tree. This is one if the
tree is a declaration, an expression with its ending, a return, a block or a conditional, and none
if it is an empty statement. What is appended for a return of three parts gives back the value of
the second; for one of two parts, it gives back null. -/
theorem statement_appends (children : List Tree) (span : Span) (kind : SinkKind)
    (before : List Operation) (outer : Sinks) (modes : List Mode) (result : Option Operation)
    (after : LoweringState)
    (h : visit (.node .statement children span) ⟨⟨kind, before⟩ :: outer, modes⟩ =
      (.ok result, after)) :
    ∃ inner appended, children = [inner] ∧
      after = ⟨⟨kind, before ++ appended⟩ :: outer, modes⟩ ∧
      appended.length = inner.statementCount ∧
      (∀ rule, inner.rule? = some rule → rule.isActive = true →
        ∃ operation, appended = [operation]) ∧
      (inner.rule? = some .emptyStatement → appended = []) ∧
      (∀ keyword sequence ending around,
        inner = .node .returnStatement [keyword, sequence, ending] around →
          ∃ operation,
            value sequence ⟨⟨kind, before⟩ :: outer, modes⟩ =
              (.ok operation, ⟨⟨kind, before⟩ :: outer, modes⟩) ∧
            appended = [.giveBack operation]) ∧
      ∀ keyword ending around, inner = .node .returnStatement [keyword, ending] around →
        appended = [.giveBack (.literal .null)] := by
  obtain ⟨inner, found, rfl, hvisit⟩ := visit_of_statement h
  have hcount := visit_count inner ⟨⟨kind, before⟩ :: outer, modes⟩
  rw [hvisit] at hcount
  obtain ⟨hmodes, appended, hlength, hsinks⟩ := hcount
  obtain ⟨sinks, _⟩ := after
  cases hmodes
  cases hsinks
  refine ⟨inner, appended, rfl, rfl, hlength, ?_, ?_, ?_, ?_⟩
  · intro rule hrule hactive
    rw [Tree.statementCount_of_isActive hrule hactive] at hlength
    exact List.length_eq_one_iff.mp hlength
  · intro hempty
    cases inner with
    | leaf => cases hempty
    | node rule children span =>
      cases hempty
      exact List.length_eq_zero_iff.mp hlength
  · rintro keyword sequence ending around rfl
    obtain ⟨operation, hvalue, hafter⟩ := visit_return_value hvisit
    simp only [LoweringState.mk.injEq, List.cons.injEq, Sink.mk.injEq,
      List.append_cancel_left_eq, true_and, and_true] at hafter
    exact ⟨operation, hvalue, hafter⟩
  · rintro keyword ending around rfl
    have hafter := visit_return_null hvisit
    simpa only [Sinks.extend, LoweringState.mk.injEq, List.cons.injEq, Sink.mk.injEq,
      List.append_cancel_left_eq, true_and, and_true] using hafter

/-- The tree of a variable as a sequence of expressions. -/
def sequenceTree (name : String) : Tree :=
  .node .expressionSequence [variableTree name] (Span.point 0)

/-- The tree of a return with what stands behind the word. -/
def returnTree (parts : List Tree) : Tree :=
  .node .statement
    [.node .returnStatement (.leaf .keyword "return" (Span.point 0) :: parts) (Span.point 0)]
    (Span.point 0)

/-- Inside a function, `return x;` appends one operation, which gives back the value of `x`. -/
theorem statement_appends_return :
    let earlier : Operation := .getVariable "y"
    ∃ after, visit (returnTree [sequenceTree "x", .node .eos [] (Span.point 0)])
        ⟨[⟨.function, [earlier]⟩, ⟨.program, []⟩], [.value]⟩ = (.ok none, after) ∧
      after = ⟨[⟨.function, [earlier] ++ [.giveBack (.getVariable "x")]⟩, ⟨.program, []⟩],
        [.value]⟩ := by
  intro earlier
  have hvalue : value (sequenceTree "x") ⟨[⟨.function, [earlier]⟩, ⟨.program, []⟩], [.value]⟩ =
      (.ok (.getVariable "x"), ⟨[⟨.function, [earlier]⟩, ⟨.program, []⟩], [.value]⟩) := by
    simp only [sequenceTree, variableTree, identifierTree, value, visit, lowerSequence,
      lowerExpression, primary]
    rfl
  have hvisit : ∃ after, visit (returnTree [sequenceTree "x", .node .eos [] (Span.point 0)])
      ⟨[⟨.function, [earlier]⟩, ⟨.program, []⟩], [.value]⟩ = (.ok none, after) := by
    simp only [returnTree, sequenceTree, variableTree, identifierTree, visit, visitInner,
      lowerReturn, value, lowerSequence, lowerExpression, primary]
    exact ⟨_, rfl⟩
  obtain ⟨after, hvisit⟩ := hvisit
  obtain ⟨inner, appended, hchildren, hafter, -, -, -, hreturn, -⟩ :=
    statement_appends _ _ _ _ _ _ _ _ hvisit
  cases hchildren
  obtain ⟨operation, hoperation, rfl⟩ := hreturn _ _ _ _ rfl
  rw [hvalue] at hoperation
  cases hoperation
  exact ⟨after, hvisit, hafter⟩

/-- A statement that wraps the expression `x` without its ending is accepted, and nothing is
appended for it. A return of `x` without its ending is accepted too, and gives back null. -/
theorem statement_without_ending_lost :
    value (sequenceTree "x") opened = (.ok (.getVariable "x"), opened) ∧
      visit (.node .statement [sequenceTree "x"] (Span.point 0)) opened = (.ok none, opened) ∧
      visit (returnTree [sequenceTree "x"]) opened =
        (.ok none, ⟨[⟨.program, [.giveBack (.literal .null)]⟩], [.value]⟩) := by
  simp only [returnTree, sequenceTree, variableTree, identifierTree, visit, visitInner,
    lowerReturn, value, lowerSequence, lowerExpression, primary]
  exact ⟨rfl, rfl, rfl⟩

end Lowering

end TreeScript
