import TreeScript.Proofs.Tree.Progress

/-!
# Reading comes to an end

The levels of the grammar call one another without taking a token, so tokens alone do not bound the
moves of an agenda. Each goal is given a height: a goal that leaves the token makes room only for
lower goals. A goal that may be left for nothing keeps one unit while it waits, which pays for going
back to it. With that, every move lowers the effort of an agenda, and a token that is taken pays for
the goals that come with it.

So every agenda halts. A reader ends after at most 35 moves for each token that it takes, and after
at most 33 more where it is refused: `reading_progresses`.
-/

namespace TreeScript

namespace Goal

/-- Whether a goal may be left with nothing in its place. -/
def isOptional : Goal → Bool
  | more _ | assignmentTail | binaryTail _ | powerTail | stepTail | chainTail | statementEnd
  | declaratorTail | returned | elseTail | parameters => true
  | _ => false

/-- How far a goal is above those that it may come down to without taking a token. -/
def height : Goal → Nat
  | chain => 2
  | stepped => 4
  | signed => 5
  | power => 7
  | binary level => 9 + 2 * level.looseness
  | assignment => 29
  | elements => 30
  | elementTail | arguments => 31
  | statement => 32
  | inside => 33
  | goal => if goal.isOptional then 34 else 0

/-- The height of the nearest goal. With no goal, one more statement may be asked for. -/
def top : List Goal → Nat
  | [] => 33
  | goal :: _ => goal.height

/-- The effort of goals: the nearest one counts with its height, and those that wait only if they
may be left. -/
def effort (goals : List Goal) : Nat := top goals + goals.tail.countP isOptional

/-- No goal is higher than the greatest height. -/
theorem height_le (goal : Goal) : goal.height ≤ 33 + if goal.isOptional then 1 else 0 := by
  cases goal with
  | binary level => cases level <;> decide
  | _ => simp [height, isOptional]

/-- Efforts add up. -/
theorem effort_append_le (goals rest : List Goal) :
    effort (goals ++ rest) ≤ effort goals + rest.countP isOptional := by
  cases goals with
  | cons goal goals =>
    change goal.height + (goals ++ rest).countP isOptional ≤ _
    rw [List.countP_append, ← Nat.add_assoc]
    exact Nat.le_refl _
  | nil =>
    cases rest with
    | nil => exact Nat.le_refl _
    | cons goal rest =>
      have hheight := goal.height_le
      change goal.height + rest.countP isOptional ≤ 33 + (goal :: rest).countP isOptional
      rw [List.countP_cons]
      omega

end Goal

/-- A move keeps within a height: the goals that it leaves a token to are lower, and those that come
with a token that is taken are lower with the share of a token. -/
def Move.KeepsWithin (height : Nat) : Move → Prop
  | .take goals => Goal.effort goals < height + 35
  | .leave goals => Goal.effort goals < height
  | .refuse _ | .accept => True

instance (height : Nat) (move : Move) : Decidable (move.KeepsWithin height) :=
  match move with
  | .take _ | .leave _ => Nat.decLt _ _
  | .refuse _ | .accept => .isTrue trivial

namespace Move.KeepsWithin

variable {height : Nat}

/-- A choice keeps within if both do. -/
theorem ite {condition : Prop} [Decidable condition] {first second : Move}
    (h : first.KeepsWithin height) (hsecond : second.KeepsWithin height) :
    (if condition then first else second).KeepsWithin height := by
  split
  · exact h
  · exact hsecond

/-- So does a token expected. -/
theorem expect {view : TokenView} {kind : Kind} {goals : List Goal}
    (h : Goal.effort goals < height + 35) : (view.expect kind goals).KeepsWithin height :=
  ite h trivial

end Move.KeepsWithin

namespace Goal

/-- An operand is lower than its level. -/
theorem height_operandGoal (level : Level) :
    level.operandGoal.height + 2 = (binary level).height := by
  cases level <;> rfl

/-- A statement is lower than its goal. -/
theorem moveStatement_keepsWithin (form : Phrase) :
    (moveStatement form).KeepsWithin statement.height := by
  unfold moveStatement
  split <;> decide

/-- Every move keeps within the goal's height. -/
theorem move_keepsWithin (goal : Goal) (view : TokenView) :
    (goal.move view).KeepsWithin goal.height := by
  -- One case for each form of a move; the bound of every branch is a number.
  cases goal with
  | closeParen | closeBracket | declarator | condition | functionName | functionParameters
  | parameter | functionBody => exact .expect (by decide)
  | assignment | power | stepped | chain =>
    change effort _ < _
    decide
  | assignmentTail | powerTail | signed | stepTail | memberName | arguments | declaratorTail
  | returned | elseTail | parameters => exact .ite (by decide) (by decide)
  | statementEnd => exact .ite (by decide) (.ite (by decide) trivial)
  | primary | chainTail => exact .ite (by decide) (.ite (by decide) (.ite (by decide) (by decide)))
  | elements => exact .ite (.expect (by decide)) (.ite (by decide) (by decide))
  | elementTail => exact .ite (by decide) (.expect (by decide))
  | inside => exact .ite (.expect (by decide)) (by decide)
  | statement => exact moveStatement_keepsWithin _
  | more item =>
    have hitem : item.height ≤ 34 := item.height_le.trans (by split <;> decide)
    exact .ite (show item.height + 1 < 34 + 35 by omega) (show 33 < 34 by decide)
  | binary level =>
    have hoperand := height_operandGoal level
    change level.operandGoal.height + 1 < (binary level).height
    omega
  | binaryTail level =>
    have hoperand : level.operandGoal.height ≤ 34 := by cases level <;> decide
    exact .ite (show level.operandGoal.height + 1 < 34 + 35 by omega) (show 33 < 34 by decide)

end Goal

namespace Agenda

/-- The effort of the goals, and the share of every token to come. -/
def effort (agenda : Agenda) : Nat := Goal.effort agenda.goals + 35 * agenda.views.length

/-- So does a move for the top goal. -/
theorem move_keepsWithin (goals : List Goal) (view : TokenView) :
    (move goals view).KeepsWithin (Goal.top goals) := by
  cases goals with
  | nil => exact .ite trivial (.ite trivial (by decide))
  | cons goal rest => exact goal.move_keepsWithin view

/-- Every move lowers the effort. -/
theorem step_effort_lt {first second : Agenda} (h : step first = some second) :
    second.effort < first.effort := by
  obtain ⟨view, views, more, hviews, hgoals, hmoves⟩ := step_cases h
  have hkeeps := move_keepsWithin first.goals view
  have happend := Goal.effort_append_le more first.goals.tail
  have hfirst : first.effort = Goal.top first.goals +
      first.goals.tail.countP Goal.isOptional + 35 * (views.length + 1) := by
    rw [effort, hviews, List.length_cons, Goal.effort]
  rw [hfirst, effort, hgoals]
  -- A token that is taken gives up its share; where it is left, only the height comes down.
  obtain ⟨hmove, hsecond⟩ | ⟨hmove, hsecond⟩ := hmoves
  · rw [hmove] at hkeeps
    change Goal.effort more < _ at hkeeps
    rw [hsecond]
    omega
  · rw [hmove] at hkeeps
    change Goal.effort more < _ at hkeeps
    rw [hsecond, List.length_cons]
    omega

/-- A run makes no more moves than it lowers the effort. -/
theorem Leads.exists_after {first last : Agenda} (h : Leads first last) :
    ∃ count, after count first = last ∧ count + last.effort ≤ first.effort := by
  induction h using Relation.ReflTransGen.head_induction_on with
  | refl => exact ⟨0, rfl, by omega⟩
  | @head first second hstep _ ih =>
    obtain ⟨count, hafter, hcount⟩ := ih
    have hlt := step_effort_lt hstep
    refine ⟨count + 1, ?_, by omega⟩
    rw [after, hstep]
    exact hafter

/-- Every agenda halts. -/
theorem step_after_effort (agenda : Agenda) : step (after agenda.effort agenda) = none := by
  -- The number of moves stays fixed while the agenda changes, so only a bound is kept.
  generalize hbound : agenda.effort = bound
  have hle : agenda.effort ≤ bound := hbound.le
  clear hbound
  induction bound generalizing agenda with
  | zero =>
    cases hstep : step agenda with
    | none => exact hstep
    | some next =>
      have hlt := step_effort_lt hstep
      omega
  | succ bound ih =>
    rw [after]
    cases hstep : step agenda with
    | none => exact hstep
    | some next =>
      have hlt := step_effort_lt hstep
      exact ih next (by omega)

end Agenda

/-! ## Readers and agendas -/

namespace Cursor

/-- There is a view for each token and the end. -/
theorem length_views (c : Cursor) : c.views.length = c.remaining + 1 := by
  rw [views, List.length_append, List.length_map]
  rfl

/-- The effort grows with the tokens. -/
theorem effort_views (c : Cursor) (goals : List Goal) :
    Agenda.effort ⟨goals, c.views⟩ = Goal.effort goals + 35 * (c.remaining + 1) := by
  rw [Agenda.effort, length_views]

/-- The moves of an agenda come to what an attempt gives. There are at most 35 of them for each
token that is taken, and at most 33 more where the attempt is refused. -/
inductive Arrives {α : Type} {bound : Nat} (goals : List Goal) (c : Cursor) :
    Attempt α bound → Prop
  | ok {reading : Reading α bound} {count : Nat} :
      Agenda.after count ⟨goals, c.views⟩ = ⟨[], reading.next.views⟩ →
      count + 35 * reading.next.remaining ≤ 35 * c.remaining →
      Arrives goals c (.ok reading)
  | error {refusal : Refusal} {stuck : List Goal} {count : Nat} :
      Agenda.after count ⟨goals, c.views⟩ = ⟨stuck, refusal.stoppedAt.views⟩ →
      Agenda.move stuck refusal.stoppedAt.view = .refuse refusal.expected →
      count + 35 * refusal.stoppedAt.remaining ≤ 35 * c.remaining + 33 →
      Arrives goals c (.error refusal)

end Cursor

/-- A pursuit arrives within its effort. -/
theorem Pursues.arrives {α : Type} {bound : Nat} {goals : List Goal} {c : Cursor}
    {attempt : Attempt α bound} (h : Pursues goals c attempt [])
    (hgoals : Goal.effort goals ≤ 33) : c.Arrives goals attempt := by
  cases h with
  | ok _ hleads =>
    obtain ⟨count, hafter, hcount⟩ := hleads.exists_after
    rw [Cursor.effort_views, Cursor.effort_views] at hcount
    have hend : Goal.effort [] = 33 := rfl
    exact .ok hafter (by omega)
  | error _ hleads hmove =>
    obtain ⟨count, hafter, hcount⟩ := hleads.exists_after
    rw [Cursor.effort_views, Cursor.effort_views] at hcount
    exact .error hafter hmove (by omega)

/-- Every reader has a small effort. -/
theorem Reader.effort_goals_le (reader : Reader) : Goal.effort reader.goals ≤ 33 := by
  cases reader with
  | statement | sequence => decide
  | expression strength =>
    cases strength with
    | level level => cases level <;> decide
    | _ => decide

namespace Cursor

/-- Every agenda halts. -/
theorem exists_halt (c : Cursor) (goals : List Goal) :
    ∃ count ≤ 35 * (c.remaining + 2) + goals.length,
      Agenda.step (Agenda.after count ⟨goals, c.views⟩) = none := by
  refine ⟨_, ?_, Agenda.step_after_effort ⟨goals, c.views⟩⟩
  have heffort : Goal.effort goals ≤ 33 + goals.countP Goal.isOptional :=
    Goal.effort_append_le [] goals
  have hcount : goals.countP Goal.isOptional ≤ goals.length := List.countP_le_length
  rw [effort_views]
  omega

/-- Reading makes progress from every cursor, and comes to an end.

A statement, a sequence of expressions or an expression of any strength is refused or takes at least
one token. No reading goes back, also where it is taken up again behind a refusal. Every loop ends
within as many passes as there are tokens left. Every reader ends with the moves of its agenda, at
most 35 for each token that it takes and 33 more where it is refused, and an agenda halts whatever
its goals are. -/
theorem reading_progresses (c : Cursor) :
    (∀ reader : Reader, c.Advances (reader.read c)) ∧
      (∀ entries : List EntryPoint, c.Reaches (c.resumed entries)) ∧
      c.LoopsEnd ∧
      (∀ reader : Reader, c.Arrives reader.goals (reader.read c)) ∧
      c.Arrives [] c.readProgram ∧
      ∀ goals : List Goal, ∃ count ≤ 35 * (c.remaining + 2) + goals.length,
        Agenda.step (Agenda.after count ⟨goals, c.views⟩) = none := by
  refine ⟨c.advances_read, c.reaches_resumed, c.loopsEnd, fun reader => ?_, ?_, c.exists_halt⟩
  · have hpursues := reader.pursues c []
    rw [List.append_nil] at hpursues
    exact hpursues.arrives reader.effort_goals_le
  · exact c.pursues_readProgram.arrives (Nat.le_refl 33)

end Cursor

end TreeScript
