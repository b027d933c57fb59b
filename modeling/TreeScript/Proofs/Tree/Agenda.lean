import Mathlib.Logic.Relation
import TreeScript.Proofs.Tree.Derivation

/-!
# Agendas

An agenda is what the readers do, without the trees that they build: the goals that are still to be
reached, the nearest first, and the tokens to come. The nearest goal looks at one token. It takes
the token, leaves it or refuses it, and other goals come in its place. When no goal is left, the
program itself asks for one more statement, up to the end of the input.

An agenda has at most one way to go on, so two runs from one agenda to a halt are the same run.
A run has seen nothing behind the token where it stands: with other tokens there it would have
been the same. Behind the last token that it has taken, it has seen nothing at all.
-/

namespace TreeScript

/-! ## What is seen of a token -/

namespace TokenView

/-- Whether there is a token and its kind passes a test. -/
def sees (view : TokenView) (test : Kind → Bool) : Bool := view.kind?.any test

/-- Whether the input ends here. -/
def isEnd (view : TokenView) : Bool := view.kind?.isNone

end TokenView

namespace Cursor

/-- The next token or the end of the input. -/
def view (cursor : Cursor) : TokenView :=
  match cursor.tokens with
  | token :: _ => token.view
  | [] => ⟨none, "", cursor.newlineBeforeEnd⟩

/-- The tokens to come and the end of the input. -/
def views (cursor : Cursor) : List TokenView :=
  cursor.tokens.map Token.view ++ [⟨none, "", cursor.newlineBeforeEnd⟩]

section

variable (c : Cursor)

/-- A view has the next kind. -/
@[simp] theorem view_kind? : c.view.kind? = c.kind? := by
  unfold view kind?
  cases c.tokens <;> rfl

/-- A view has the line break. -/
@[simp] theorem view_newlineBefore : c.view.newlineBefore = c.newlineBefore := by
  unfold view newlineBefore
  cases c.tokens <;> rfl

/-- A view sees what its cursor does. -/
@[simp] theorem view_sees (test : Kind → Bool) : c.view.sees test = c.sees test := by
  rw [TokenView.sees, view_kind?, sees]

/-- A view is the end where no token is left. -/
@[simp] theorem view_isEnd : c.view.isEnd = c.tokens.isEmpty := by
  rw [TokenView.isEnd, view_kind?, kind?]
  cases c.tokens <;> rfl

/-- The first view is that of the cursor. -/
theorem views_eq : ∃ later, c.views = c.view :: later := by
  unfold views view
  cases c.tokens with
  | nil => exact ⟨[], rfl⟩
  | cons token rest => exact ⟨_, rfl⟩

end

/-- A token that is taken is the one in view. -/
theorem Takes.views {test : Kind → Bool} {c c₁ : Cursor} {token : Token}
    (h : c.Takes test token c₁) : c.views = c.view :: c₁.views := by
  cases h
  rfl

end Cursor

/-! ## Goals -/

/-- What is still to be read. A goal that ends in `Tail` is there to go on with what has been
read, and may be left. -/
inductive Goal where
  | closeParen
  | closeBracket
  /-- More items of a list, each after its comma. -/
  | more (item : Goal)
  | memberName
  | assignment
  | assignmentTail
  | binary (level : Level)
  | binaryTail (level : Level)
  | power
  | powerTail
  | signed
  | stepped
  | stepTail
  | chain
  | chainTail
  | primary
  /-- The arguments of a call after their opening parenthesis. -/
  | arguments
  /-- The elements of a list after its opening bracket or a comma. -/
  | elements
  /-- What follows an element of a list. -/
  | elementTail
  | statement
  | statementEnd
  /-- Statements up to a closing brace. -/
  | inside
  | declarator
  | declaratorTail
  /-- What a function returns. -/
  | returned
  | condition
  | elseTail
  | functionName
  /-- The parameters of a function with their parentheses, and its body. -/
  | functionParameters
  | parameters
  | parameter
  | functionBody
deriving DecidableEq, Repr

/-- What a goal does at a token, and the goals that come in its place. -/
inductive Move where
  | take (goals : List Goal)
  | leave (goals : List Goal)
  | refuse (expected : Expectation)
  /-- The input has ended where it may. -/
  | accept
deriving DecidableEq, Repr

/-- Take a token of one kind and no other. -/
def TokenView.expect (view : TokenView) (kind : Kind) (goals : List Goal) : Move :=
  if view.sees (· == kind) then .take goals else .refuse (.token kind)

/-- The goals of an operand of a level. -/
def Level.operandGoal (level : Level) : Goal :=
  match level.tighter? with
  | some tighter => .binary tighter
  | none => .power

namespace Goal

/-- The goals of a sequence of expressions. -/
def sequence : List Goal := [assignment, more assignment]

/-- What a statement does at its first token. -/
def moveStatement : Phrase → Move
  | .block => .take [inside]
  | .variableStatement => .take [declarator, more declarator, statementEnd]
  | .emptyStatement => .take []
  | .conditional => .take [condition, statement, elseTail]
  | .loop => .take [condition, statement]
  | .returnStatement => .take [returned, statementEnd]
  | .function => .take [functionName]
  | _ => .leave (sequence ++ [statementEnd])

/-- What a goal does at a token. -/
def move (goal : Goal) (view : TokenView) : Move :=
  match goal with
  | closeParen => view.expect (.mark .closeParen) []
  | closeBracket => view.expect (.mark .closeBracket) []
  | more item =>
    if view.sees (· == .mark .comma) then .take [item, more item] else .leave []
  | memberName =>
    if view.sees (· == .name) || view.sees Kind.isWord then .take [] else .refuse .propertyName
  | assignment => .leave [binary .disjunction, assignmentTail]
  | assignmentTail => if view.sees Kind.isAssignment then .take [assignment] else .leave []
  | binary level => .leave [level.operandGoal, binaryTail level]
  | binaryTail level =>
    if view.sees level.accepts then .take [level.operandGoal, binaryTail level] else .leave []
  | power => .leave [signed, powerTail]
  | powerTail => if view.sees (· == .mark .power) then .take [power] else .leave []
  | signed => if view.sees Kind.isPrefixSign then .take [signed] else .leave [stepped]
  | stepped => .leave [chain, stepTail]
  | stepTail =>
    if view.sees fun kind => kind.isStep && !view.newlineBefore then .take [] else .leave []
  | chain => .leave [primary, chainTail]
  | chainTail =>
    if view.sees (· == .mark .dot) then .take [memberName, chainTail]
    else if view.sees (· == .mark .openBracket) then
      .take (sequence ++ [closeBracket, chainTail])
    else if view.sees (· == .mark .openParen) then .take [arguments, chainTail]
    else .leave []
  | primary =>
    if view.sees Kind.isAtom then .take []
    else if view.sees (· == .mark .openBracket) then .take [elements]
    else if view.sees (· == .mark .openParen) then .take (sequence ++ [closeParen])
    else .refuse .continuation
  | arguments =>
    if view.sees (· == .mark .closeParen) then .take [] else .leave (sequence ++ [closeParen])
  | elements =>
    if view.isEnd || view.sees (· == .mark .closeBracket) then
      view.expect (.mark .closeBracket) []
    else if view.sees (· == .mark .comma) then .take [elements]
    else .leave [assignment, elementTail]
  | elementTail =>
    if view.sees (· == .mark .closeBracket) then .leave [elements]
    else view.expect (.mark .comma) [elements]
  | statement => moveStatement (.ofFirst view.kind?)
  | statementEnd =>
    if view.sees (· == .mark .semicolon) then .take []
    else if view.sees (· == .mark .closeBrace) || view.isEnd || view.newlineBefore then .leave []
    else .refuse .statementEnd
  | inside =>
    if view.sees (· == .mark .closeBrace) || view.isEnd then view.expect (.mark .closeBrace) []
    else .leave [statement, inside]
  | declarator => view.expect .name [declaratorTail]
  | declaratorTail => if view.sees (· == .mark .assign) then .take [assignment] else .leave []
  | returned =>
    if view.sees (· == .mark .semicolon) || view.sees (· == .mark .closeBrace) || view.isEnd ||
        view.newlineBefore then
      .leave []
    else .leave sequence
  | condition => view.expect (.mark .openParen) (sequence ++ [closeParen])
  | elseTail => if view.sees (· == .word .elseWord) then .take [statement] else .leave []
  | functionName => view.expect .name [functionParameters]
  | functionParameters => view.expect (.mark .openParen) [parameters, closeParen, functionBody]
  | parameters =>
    if view.sees (· == .mark .closeParen) then .leave [] else .leave [parameter, more parameter]
  | parameter => view.expect .name []
  | functionBody => view.expect (.mark .openBrace) [inside]

/-- Only a token of the language is taken. -/
theorem sees_of_take {goal : Goal} {view : TokenView} {goals : List Goal}
    (h : goal.move view = .take goals) : view.sees (· != .invalid) = true := by
  obtain ⟨kind?, text, newline⟩ := view
  cases kind? with
  | none => cases newline <;> cases goal <;> cases h
  | some kind =>
    cases kind with
    | invalid => cases newline <;> cases goal <;> cases h
    | _ => rfl

end Goal

/-! ## Runs -/

/-- What is still to be read, and what is still to come. -/
structure Agenda where
  goals : List Goal
  views : List TokenView
deriving DecidableEq, Repr

namespace Agenda

/-- What is done at a token: by the nearest goal or, where there is none, by the program. -/
def move : List Goal → TokenView → Move
  | goal :: _, view => goal.move view
  | [], view =>
    if view.isEnd then .accept
    else if view.sees (· == .mark .closeBrace) then .refuse .continuation
    else .leave [.statement]

/-- The agenda after a move. -/
def step : Agenda → Option Agenda
  | ⟨_, []⟩ => none
  | ⟨goals, view :: views⟩ =>
    match move goals view with
    | .take more => some ⟨more ++ goals.tail, views⟩
    | .leave more => some ⟨more ++ goals.tail, view :: views⟩
    | .refuse _ | .accept => none

/-- One agenda comes from another by any number of moves. -/
def Leads : Agenda → Agenda → Prop :=
  Relation.ReflTransGen fun first second => step first = some second

section

variable {goals more : List Goal} {view : TokenView} {views : List TokenView}

/-- A token is taken. -/
theorem step_take (h : move goals view = .take more) :
    step ⟨goals, view :: views⟩ = some ⟨more ++ goals.tail, views⟩ := by
  rw [step, h]

/-- A token is left to other goals. -/
theorem step_leave (h : move goals view = .leave more) :
    step ⟨goals, view :: views⟩ = some ⟨more ++ goals.tail, view :: views⟩ := by
  rw [step, h]

/-- No step follows a refusal. -/
theorem step_refuse {expected : Expectation} (h : move goals view = .refuse expected) :
    step ⟨goals, view :: views⟩ = none := by
  rw [step, h]

/-- No step follows acceptance. -/
theorem step_accept (h : move goals view = .accept) : step ⟨goals, view :: views⟩ = none := by
  rw [step, h]

/-- Every move takes a token or leaves it. -/
theorem step_cases {first second : Agenda} (h : step first = some second) :
    ∃ view views more, first.views = view :: views ∧ second.goals = more ++ first.goals.tail ∧
      (move first.goals view = .take more ∧ second.views = views ∨
        move first.goals view = .leave more ∧ second.views = view :: views) := by
  obtain ⟨goals, views⟩ := first
  cases views with
  | nil => cases h
  | cons view views =>
    cases hmove : move goals view with
    | take more =>
      rw [step_take hmove] at h
      cases h
      exact ⟨view, views, more, rfl, rfl, .inl ⟨hmove, rfl⟩⟩
    | leave more =>
      rw [step_leave hmove] at h
      cases h
      exact ⟨view, views, more, rfl, rfl, .inr ⟨hmove, rfl⟩⟩
    | refuse expected =>
      rw [step_refuse hmove] at h
      cases h
    | accept =>
      rw [step_accept hmove] at h
      cases h

end

/-- Two runs from one agenda that cannot go on have come to the same agenda. -/
theorem Leads.unique {first second other : Agenda} (h : Leads first second)
    (hother : Leads first other) (hhalt : step second = none) (hhaltOther : step other = none) :
    second = other := by
  induction h using Relation.ReflTransGen.head_induction_on with
  | refl =>
    cases hother.cases_head with
    | inl heq => exact heq
    | inr hstep =>
      obtain ⟨next, hnext, -⟩ := hstep
      rw [hhalt] at hnext
      cases hnext
  | head hstep _ ih =>
    cases hother.cases_head with
    | inl heq =>
      rw [heq, hhaltOther] at hstep
      cases hstep
    | inr hsteps =>
      obtain ⟨next, hnext, hleads⟩ := hsteps
      rw [hstep] at hnext
      cases hnext
      exact ih hleads

/-- The agenda after a number of moves, or where it halts before. -/
def after : Nat → Agenda → Agenda
  | 0, agenda => agenda
  | count + 1, agenda =>
    match step agenda with
    | some next => after count next
    | none => agenda

/-- So many steps are a run. -/
theorem leads_after (count : Nat) (agenda : Agenda) : Leads agenda (after count agenda) := by
  induction count generalizing agenda with
  | zero => exact .refl
  | succ count ih =>
    rw [after]
    cases hstep : step agenda with
    | none => exact .refl
    | some next => exact .head hstep (ih next)

/-- No invalid token is taken. -/
theorem sees_of_take {goals more : List Goal} {view : TokenView}
    (h : move goals view = .take more) : view.sees (· != .invalid) = true := by
  cases goals with
  | cons goal goals => exact Goal.sees_of_take h
  | nil =>
    rw [move] at h
    split at h
    · cases h
    · split at h <;> cases h

/-- Where a run has taken its last token. Up to there it has looked only at the tokens that it has
taken, and from there on only at the token where it stands. -/
theorem Leads.exists_arrival {first last : Agenda} (h : Leads first last) :
    ∃ taken goals, first.views = taken ++ last.views ∧
      (∀ view ∈ taken, view.sees (· != .invalid) = true) ∧
      (∀ rest, Leads ⟨first.goals, taken ++ rest⟩ ⟨goals, rest⟩) ∧
      ∀ view, last.views.head? = some view →
        ∀ rest, Leads ⟨goals, view :: rest⟩ ⟨last.goals, view :: rest⟩ := by
  induction h with
  | refl =>
    exact ⟨[], first.goals, rfl, List.forall_mem_nil _, fun rest => .refl, fun view _ rest => .refl⟩
  | @tail middle last _ hstep ih =>
    obtain ⟨taken, goals, hviews, hvalid, harrive, hstand⟩ := ih
    obtain ⟨view, views, more, hmiddle, hgoals, htake | hleave⟩ := step_cases hstep
    · obtain ⟨hmove, hlast⟩ := htake
      refine ⟨taken ++ [view], last.goals, ?_, ?_, fun rest => ?_, fun _ _ _ => .refl⟩
      · rw [hviews, hmiddle, hlast, List.append_assoc]
        rfl
      · intro other hother
        rcases List.mem_append.mp hother with hbefore | hnew
        · exact hvalid other hbefore
        · rw [List.mem_singleton.mp hnew]
          exact sees_of_take hmove
      · have hhead : middle.views.head? = some view := by rw [hmiddle]; rfl
        have hreach := (harrive (view :: rest)).trans (hstand view hhead rest)
        rw [List.append_assoc, hgoals]
        exact hreach.tail (step_take hmove)
    · obtain ⟨hmove, hlast⟩ := hleave
      refine ⟨taken, goals, ?_, hvalid, harrive, fun other hother rest => ?_⟩
      · rw [hviews, hmiddle, hlast]
      · rw [hlast] at hother
        cases hother
        have hhead : middle.views.head? = some view := by rw [hmiddle]; rfl
        rw [hgoals]
        exact (hstand view hhead rest).tail (step_leave hmove)

/-! ## Programs -/

/-- The tokens and the end behind them make up a program. -/
def Accepts (views : List TokenView) : Prop :=
  ∃ view, view.isEnd = true ∧ Leads ⟨[], views⟩ ⟨[], [view]⟩

/-- Behind the tokens that are taken, a token is refused. -/
def Refuses (views taken : List TokenView) (view : TokenView) (expected : Expectation) : Prop :=
  ∃ goals rest, views = taken ++ view :: rest ∧ Leads ⟨[], views⟩ ⟨goals, view :: rest⟩ ∧
    move goals view = .refuse expected

namespace Refuses

variable {views taken : List TokenView} {view : TokenView} {expected : Expectation}

/-- A refused text is not accepted. -/
theorem not_accepts (h : Refuses views taken view expected) : ¬ Accepts views := by
  rintro ⟨last, hlast, haccepts⟩
  obtain ⟨goals, rest, -, hleads, hmove⟩ := h
  have haccept : move [] last = .accept := if_pos hlast
  cases haccepts.unique hleads (step_accept haccept) (step_refuse hmove)
  rw [haccept] at hmove
  cases hmove

/-- Tokens are refused at one place and for one reason. -/
theorem unique {others : List TokenView} {other : TokenView} {reason : Expectation}
    (h : Refuses views taken view expected) (hother : Refuses views others other reason) :
    taken = others ∧ view = other ∧ expected = reason := by
  obtain ⟨goals, rest, hviews, hleads, hmove⟩ := h
  obtain ⟨otherGoals, otherRest, hviewsOther, hleadsOther, hmoveOther⟩ := hother
  cases hleads.unique hleadsOther (step_refuse hmove) (step_refuse hmoveOther)
  rw [hmove] at hmoveOther
  cases hmoveOther
  exact ⟨List.append_cancel_right (hviews.symm.trans hviewsOther), rfl, rfl⟩

/-- What follows a refused token does not matter. -/
theorem before (h : Refuses views taken view expected) (rest : List TokenView) :
    Refuses (taken ++ view :: rest) taken view expected := by
  obtain ⟨goals, behind, hviews, hleads, hmove⟩ := h
  obtain ⟨seen, arrived, hseen, -, harrive, hstand⟩ := hleads.exists_arrival
  have htaken : taken = seen := by
    rw [hviews] at hseen
    exact List.append_cancel_right hseen
  subst htaken
  exact ⟨goals, rest, rfl, (harrive _).trans (hstand view rfl rest), hmove⟩

end Refuses

end Agenda

end TreeScript
