import TreeScript.Proofs.Tree.Agenda

/-!
# Agendas can be completed

Whatever goals a program has come to, tokens exist that reach all of them. `Goal.completion` lists
them goal by goal, each token on a line of its own: a name stands for an expression or a statement,
and every bracket that is open is closed.

A goal is completed in front of a token that goes on with nothing: with the tokens used here and a
line break before them, an operator, a step sign or an end mark is never at issue. The goals that
wait behind the nearest one all begin with such a token or with none. The two that do not begin so
are only ever the nearest.
-/

namespace TreeScript

open Agenda

/-- The tokens that go on with nothing before them, given a line break in between. -/
def Kind.startsAnew : Kind → Bool
  | name | mark .closeParen | mark .closeBracket | mark .closeBrace | mark .openBrace => true
  | _ => false

/-- Whether a token or the end of the input goes on with nothing before it. -/
def TokenView.startsAnew (view : TokenView) : Bool :=
  match view.kind? with
  | some kind => kind.startsAnew && view.newlineBefore
  | none => true

/-- The first of the tokens to come goes on with nothing before it. -/
def StartAnew (views : List TokenView) : Prop :=
  ∃ view rest, views = view :: rest ∧ view.startsAnew = true

namespace Goal

variable {rest : List TokenView}

/-! ## Completions -/

/-- A name on a line of its own. -/
def nameToken : Token := ⟨.name, "a", Span.point 0, true⟩

/-- A punctuator on a line of its own. -/
def markToken (mark : Mark) : Token := ⟨.mark mark, mark.spelling, Span.point 0, true⟩

/-- Tokens that reach a goal. -/
def completion : Goal → List Token
  | closeParen | arguments => [markToken .closeParen]
  | closeBracket | elements | elementTail => [markToken .closeBracket]
  | inside => [markToken .closeBrace]
  | memberName | assignment | binary _ | power | signed | stepped | chain | primary | statement
  | declarator | parameters | parameter => [nameToken]
  | condition => [markToken .openParen, nameToken, markToken .closeParen]
  | functionName =>
    [nameToken, markToken .openParen, nameToken, markToken .closeParen, markToken .openBrace,
      markToken .closeBrace]
  | functionParameters =>
    [markToken .openParen, nameToken, markToken .closeParen, markToken .openBrace,
      markToken .closeBrace]
  | functionBody => [markToken .openBrace, markToken .closeBrace]
  | more _ | assignmentTail | binaryTail _ | powerTail | stepTail | chainTail | statementEnd
  | declaratorTail | returned | elseTail => []

/-- Tokens that reach one goal after another. -/
def completions (goals : List Goal) : List Token := goals.flatMap completion

/-- Whether a goal may stand behind others. -/
def waits : Goal → Bool
  | condition | functionParameters => false
  | _ => true

/-- A completion is made of valid tokens. -/
theorem spells_of_mem_completion {goal : Goal} :
    ∀ token ∈ goal.completion, token.kind ≠ .invalid ∧ Spells token.text token.kind := by
  have hname : nameToken.kind ≠ .invalid ∧ Spells nameToken.text nameToken.kind :=
    ⟨by decide, Scan.spells_iff.mpr ⟨_, _, rfl, rfl, rfl⟩⟩
  have hmark (mark : Mark) :
      (markToken mark).kind ≠ .invalid ∧ Spells (markToken mark).text (markToken mark).kind :=
    ⟨Kind.noConfusion, Scan.spells_mark mark⟩
  cases goal <;> simp [completion, hname, hmark]

/-- A goal that waits starts anew. -/
theorem startAnew_completion {goal : Goal} (h : goal.waits = true) (hrest : StartAnew rest) :
    StartAnew (goal.completion.map Token.view ++ rest) := by
  cases goal with
  | condition | functionParameters => cases h
  | more | assignmentTail | binaryTail | powerTail | stepTail | chainTail | statementEnd
  | declaratorTail | returned | elseTail => exact hrest
  | _ => exact ⟨_, _, rfl, rfl⟩

/-- So do goals that wait. -/
theorem startAnew_completions {goals : List Goal} (h : ∀ goal ∈ goals, goal.waits = true)
    (hrest : StartAnew rest) :
    StartAnew ((completions goals).map Token.view ++ rest) := by
  induction goals with
  | nil => exact hrest
  | cons goal goals ih =>
    obtain ⟨hgoal, hlater⟩ := List.forall_mem_cons.mp h
    have hstart := startAnew_completion hgoal (ih hlater)
    rw [← List.append_assoc, ← List.map_append] at hstart
    exact hstart

/-- A goal that needs no token is left where something starts anew. -/
theorem move_of_startsAnew {goal : Goal} {view : TokenView} (h : goal.completion = [])
    (hview : view.startsAnew = true) : goal.move view = .leave [] := by
  obtain ⟨kind?, text, newline⟩ := view
  cases kind? with
  | none => cases goal <;> cases h <;> rfl
  | some kind =>
    have hanew : kind.startsAnew = true ∧ newline = true := Bool.and_eq_true_iff.mp hview
    obtain ⟨hkind, rfl⟩ := hanew
    cases kind with
    | name => cases goal <;> cases h <;> rfl
    | mark mark =>
      cases goal with
      | binaryTail level => cases mark <;> cases hkind <;> cases level <;> rfl
      | _ => cases h <;> cases mark <;> cases hkind <;> rfl
    | _ => cases hkind

/-! ## Goals are completed -/

/-- The tokens of a completion reach the goal in front of anything that starts anew. -/
def Completes (goal : Goal) : Prop :=
  ∀ (stack : List Goal) (rest : List TokenView), StartAnew rest →
    Leads ⟨goal :: stack, goal.completion.map Token.view ++ rest⟩ ⟨stack, rest⟩

/-- A goal that needs no token is left. -/
theorem Completes.of_nil {goal : Goal} (h : goal.completion = []) : goal.Completes := by
  intro stack rest hrest
  obtain ⟨view, later, rfl, hview⟩ := hrest
  have hmove : Agenda.move (goal :: stack) view = .leave [] := move_of_startsAnew h hview
  rw [h]
  exact .single (step_leave hmove)

/-- Goals that wait for one another are completed one after another. -/
theorem completes_all {goals : List Goal}
    (hgoals : ∀ goal ∈ goals, goal.completion ≠ [] → goal.Completes)
    (hwait : ∀ goal ∈ goals.tail, goal.waits = true) (stack : List Goal) (hrest : StartAnew rest) :
    Leads ⟨goals ++ stack, (completions goals).map Token.view ++ rest⟩ ⟨stack, rest⟩ := by
  induction goals with
  | nil => exact .refl
  | cons goal goals ih =>
    obtain ⟨hgoal, hlater⟩ := List.forall_mem_cons.mp hgoals
    have hcompletes : goal.Completes := by
      by_cases hnil : goal.completion = []
      · exact .of_nil hnil
      · exact hgoal hnil
    have hbehind := ih hlater fun other hother => hwait other (List.mem_of_mem_tail hother)
    have hleads := hcompletes (goals ++ stack) _ (startAnew_completions hwait hrest)
    rw [← List.append_assoc, ← List.map_append] at hleads
    exact hleads.trans hbehind

section

variable {goal : Goal} (goals : List Goal)
variable {token : Token}

/-- A goal is completed by the goals that it leaves a token to. -/
theorem Completes.of_leave {later : List Token} (hcompletion : goal.completion = token :: later)
    (hmove : goal.move token.view = .leave goals) (hsame : completions goals = goal.completion)
    (hgoals : ∀ goal ∈ goals, goal.completion ≠ [] → goal.Completes)
    (hwait : ∀ goal ∈ goals.tail, goal.waits = true) : goal.Completes := by
  intro stack rest hrest
  have hstep : step ⟨goal :: stack, goal.completion.map Token.view ++ rest⟩ =
      some ⟨goals ++ stack, goal.completion.map Token.view ++ rest⟩ := by
    rw [hcompletion]
    exact step_leave hmove
  have hall := completes_all hgoals hwait stack hrest
  rw [hsame] at hall
  exact .head hstep hall

/-- A goal is completed by a token that it takes and the goals behind. -/
theorem Completes.of_take (hsame : goal.completion = token :: completions goals)
    (hmove : goal.move token.view = .take goals)
    (hgoals : ∀ goal ∈ goals, goal.completion ≠ [] → goal.Completes)
    (hwait : ∀ goal ∈ goals.tail, goal.waits = true) : goal.Completes := by
  intro stack rest hrest
  rw [hsame]
  exact .head (step_take hmove) (completes_all hgoals hwait stack hrest)

/-- A goal is completed by the one token that it needs. -/
theorem Completes.of_token (hcompletion : goal.completion = [token])
    (hmove : goal.move token.view = .take []) : goal.Completes :=
  .of_take [] hcompletion hmove (List.forall_mem_nil _) (List.forall_mem_nil _)

end

/-- A name completes an operand. -/
theorem completes_primary : primary.Completes := .of_token rfl rfl

/-- An operand completes a chain. -/
theorem completes_chain : chain.Completes :=
  .of_leave [primary, chainTail] rfl rfl rfl (by simp [completion, completes_primary])
    (by simp [waits])

/-- A chain completes a stepped expression. -/
theorem completes_stepped : stepped.Completes :=
  .of_leave [chain, stepTail] rfl rfl rfl (by simp [completion, completes_chain]) (by simp [waits])

/-- That completes a signed one. -/
theorem completes_signed : signed.Completes :=
  .of_leave [stepped] rfl rfl rfl (by simp [completes_stepped]) (by simp)

/-- That completes a power. -/
theorem completes_power : power.Completes :=
  .of_leave [signed, powerTail] rfl rfl rfl (by simp [completion, completes_signed])
    (by simp [waits])

/-- An operand of a level is completed as the next tighter level is. -/
theorem completes_binary (level : Level) : (binary level).Completes := by
  have hoperand : level.operandGoal.completion = [nameToken] ∧ level.operandGoal.Completes := by
    unfold Level.operandGoal
    cases htighter : level.tighter? with
    | none => exact ⟨rfl, completes_power⟩
    | some tighter =>
      have := Level.looseness_of_tighter? htighter
      exact ⟨rfl, completes_binary tighter⟩
  have hsame : completions [level.operandGoal, binaryTail level] = [nameToken] := by
    change level.operandGoal.completion ++ ([] ++ []) = [nameToken]
    rw [hoperand.1]
    rfl
  exact .of_leave [level.operandGoal, binaryTail level] rfl rfl hsame
    (by simp [completion, hoperand.2]) (by simp [waits])
termination_by level.looseness

/-- An operation completes an assignment. -/
theorem completes_assignment : assignment.Completes :=
  .of_leave [binary .disjunction, assignmentTail] rfl rfl rfl
    (by simp [completion, completes_binary]) (by simp [waits])

/-- A bracket completes elements. -/
theorem completes_elements : elements.Completes := .of_token rfl rfl

/-- A brace completes statements. -/
theorem completes_inside : inside.Completes := .of_token rfl rfl

/-- A parenthesis completes what it closes. -/
theorem completes_closeParen : closeParen.Completes := .of_token rfl rfl

/-- A name completes a parameter. -/
theorem completes_parameter : parameter.Completes := .of_token rfl rfl

/-- A name completes parameters. -/
theorem completes_parameters : parameters.Completes :=
  .of_leave [parameter, more parameter] rfl rfl rfl (by simp [completion, completes_parameter])
    (by simp [waits])

/-- An empty body completes a function. -/
theorem completes_functionBody : functionBody.Completes :=
  .of_take [inside] rfl rfl (by simp [completes_inside]) (by simp)

/-- So do a parameter and an empty body. -/
theorem completes_functionParameters : functionParameters.Completes :=
  .of_take [parameters, closeParen, functionBody] rfl rfl
    (by simp [completes_parameters, completes_closeParen, completes_functionBody]) (by simp [waits])

/-- Every goal is completed. -/
theorem completes (goal : Goal) : goal.Completes := by
  cases goal with
  | more | assignmentTail | binaryTail | powerTail | stepTail | chainTail | statementEnd
  | declaratorTail | returned | elseTail => exact .of_nil rfl
  | memberName | closeBracket | arguments => exact .of_token rfl rfl
  | primary => exact completes_primary
  | chain => exact completes_chain
  | stepped => exact completes_stepped
  | signed => exact completes_signed
  | power => exact completes_power
  | binary level => exact completes_binary level
  | assignment => exact completes_assignment
  | elements => exact completes_elements
  | elementTail =>
    exact .of_leave [elements] rfl rfl rfl (by simp [completes_elements]) (by simp)
  | closeParen => exact completes_closeParen
  | inside => exact completes_inside
  | statement =>
    exact .of_leave (sequence ++ [statementEnd]) rfl rfl rfl
      (by simp [sequence, completion, completes_assignment]) (by simp [sequence, waits])
  | declarator => exact .of_take [declaratorTail] rfl rfl (by simp [completion]) (by simp)
  | condition =>
    exact .of_take (sequence ++ [closeParen]) rfl rfl
      (by simp [sequence, completion, completes_assignment, completes_closeParen])
      (by simp [sequence, waits])
  | parameter => exact completes_parameter
  | parameters => exact completes_parameters
  | functionBody => exact completes_functionBody
  | functionParameters => exact completes_functionParameters
  | functionName =>
    exact .of_take [functionParameters] rfl rfl (by simp [completes_functionParameters]) (by simp)

end Goal

/-! ## Goals that wait -/

/-- The goals that come in a move. -/
def Move.goals : Move → List Goal
  | take goals | leave goals => goals
  | refuse _ | accept => []

/-- Of the goals that come in a move, all but the nearest wait. -/
theorem Goal.waits_of_move (goal : Goal) (view : TokenView) :
    ∀ other ∈ (goal.move view).goals.tail, other.waits = true := by
  cases goal with
  | statement =>
    change ∀ other ∈ (moveStatement (.ofFirst view.kind?)).goals.tail, other.waits = true
    unfold moveStatement
    split <;> simp [Move.goals, sequence, waits]
  | _ =>
    simp only [move, TokenView.expect]
    repeat' split
    all_goals simp [Move.goals, sequence, waits]

namespace Agenda

/-- All goals but the nearest wait. -/
def Ready (goals : List Goal) : Prop := ∀ goal ∈ goals.tail, goal.waits = true

/-- All goals but the next wait. -/
theorem waits_of_move (goals : List Goal) (view : TokenView) :
    ∀ other ∈ (move goals view).goals.tail, other.waits = true := by
  cases goals with
  | cons goal goals => exact goal.waits_of_move view
  | nil =>
    rw [move]
    split
    · exact List.forall_mem_nil _
    · split <;> exact List.forall_mem_nil _

/-- A step leaves goals ready. -/
theorem Ready.step {first second : Agenda} (h : Ready first.goals)
    (hstep : step first = some second) : Ready second.goals := by
  obtain ⟨view, rest, more, -, hgoals, hmove⟩ := step_cases hstep
  have hmore : ∀ other ∈ more.tail, other.waits = true := by
    have hwaits := waits_of_move first.goals view
    rcases hmove with ⟨htake, -⟩ | ⟨hleave, -⟩
    · rw [htake] at hwaits
      exact hwaits
    · rw [hleave] at hwaits
      exact hwaits
  rw [hgoals]
  cases more with
  | nil => exact fun other hother => h other (List.mem_of_mem_tail hother)
  | cons goal more =>
    intro other hother
    rcases List.mem_append.mp hother with hnew | hold
    · exact hmore other hnew
    · exact h other hold

/-- A run leaves goals ready. -/
theorem Leads.ready {first last : Agenda} (h : Leads first last) (hready : Ready first.goals) :
    Ready last.goals := by
  induction h with
  | refl => exact hready
  | tail _ hstep ih => exact ih.step hstep

/-- Whatever goals a program has come to, its tokens can be completed. -/
theorem accepts_completions {taken : List TokenView} {goals : List Goal}
    (h : ∀ rest, Leads ⟨[], taken ++ rest⟩ ⟨goals, rest⟩) {view : TokenView}
    (hview : view.isEnd = true) :
    Accepts (taken ++ ((Goal.completions goals).map Token.view ++ [view])) := by
  have hready : Ready goals := (h []).ready (List.forall_mem_nil _)
  have hstart : StartAnew [view] := by
    refine ⟨view, [], rfl, ?_⟩
    rw [TokenView.startsAnew, Option.isNone_iff_eq_none.mp hview]
  have hall := Goal.completes_all (fun goal _ _ => goal.completes) hready [] hstart
  rw [List.append_nil] at hall
  exact ⟨view, hview, (h _).trans hall⟩

end Agenda

end TreeScript
