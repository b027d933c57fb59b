import TreeScript.Proofs.Tree.Agenda
import TreeScript.Proofs.Tree.Boundary
import TreeScript.Proofs.Tree.Replay

/-!
# Readers pursue goals

Every reader does with the tokens what an agenda with its goals does. Where the reader succeeds, the
agenda comes to the goals behind; where it is refused, the agenda comes to a goal that refuses the
same token with the same expectation. So whether a program is read, and where and why it is
refused, depends only on what an agenda sees of the tokens: `Cursor.pursues_readProgram`.
-/

namespace TreeScript

open Agenda

variable {test : Kind → Bool} {token : Token} {source : String}

namespace Cursor

/-- One cursor stands further on in the same input. -/
structure Reaches (c c₁ : Cursor) : Prop where
  tokens : c₁.tokens <:+ c.tokens
  endOffset : c₁.endOffset = c.endOffset

namespace Reaches

/-- A cursor reaches itself. -/
theorem refl (c : Cursor) : c.Reaches c := ⟨List.suffix_refl _, rfl⟩

/-- What is reached from a cursor reached is reached. -/
theorem trans {c c₁ c₂ : Cursor} (h : c.Reaches c₁) (hnext : c₁.Reaches c₂) : c.Reaches c₂ :=
  ⟨hnext.tokens.trans h.tokens, hnext.endOffset.trans h.endOffset⟩

end Reaches

/-- A token that is taken leads on. -/
theorem Takes.reaches {c c₁ : Cursor} (h : c.Takes test token c₁) : c.Reaches c₁ := by
  cases h
  exact ⟨List.suffix_cons _ _, rfl⟩

/-- A token that is taken has been seen. -/
theorem Takes.seen {c c₁ : Cursor} (h : c.Takes test token c₁) : c.view.sees test = true := by
  rw [view_sees, h.sees]

/-- What a cursor does not see, its view does not. -/
theorem unseen {c : Cursor} (h : c.sees test = false) : ¬ c.view.sees test = true := by
  rw [view_sees, h]
  exact Bool.false_ne_true

end Cursor

open Cursor

/-! ## Attempts and agendas -/

/-- An attempt does what an agenda does from the same goals and tokens. -/
inductive Pursues {α : Type} {bound : Nat} (goals : List Goal) (c : Cursor) :
    Attempt α bound → List Goal → Prop
  | ok {reading : Reading α bound} {after : List Goal} :
      c.Reaches reading.next → Leads ⟨goals, c.views⟩ ⟨after, reading.next.views⟩ →
      Pursues goals c (.ok reading) after
  | error {refusal : Refusal} {after stuck : List Goal} :
      c.Reaches refusal.stoppedAt → Leads ⟨goals, c.views⟩ ⟨stuck, refusal.stoppedAt.views⟩ →
      move stuck refusal.stoppedAt.view = .refuse refusal.expected →
      Pursues goals c (.error refusal) after

namespace Pursues

variable {α β : Type} {bound wider : Nat} {goals between after more stack : List Goal} {goal : Goal}
  {c c₁ : Cursor} {attempt : Attempt α bound}

variable {following : Reading α bound → Attempt β wider}

/-- An attempt further on, behind the moves that lead there. -/
theorem behind (hreaches : c.Reaches c₁) (hleads : Leads ⟨goals, c.views⟩ ⟨between, c₁.views⟩)
    (h : Pursues between c₁ attempt after) : Pursues goals c attempt after := by
  cases h with
  | ok hnext hrun => exact .ok (hreaches.trans hnext) (hleads.trans hrun)
  | error hnext hrun hmove => exact .error (hreaches.trans hnext) (hleads.trans hrun) hmove

/-- An attempt that takes nothing keeps the goals. -/
theorem stay {value : α} (h : c.remaining < bound) :
    Pursues goals c (.ok ⟨value, c, h⟩ : Attempt α bound) goals :=
  .ok (.refl c) .refl

/-- An attempt fails where the move refuses the token. -/
theorem refuse {expected : Expectation} (h : move goals c.view = .refuse expected) :
    Pursues goals c (c.refuse expected : Attempt α bound) after :=
  .error (.refl c) .refl h

/-- The nearest goal leaves the token. -/
theorem leave (hmove : goal.move c.view = .leave more)
    (h : Pursues (more ++ stack) c attempt after) :
    Pursues (goal :: stack) c attempt after := by
  obtain ⟨later, hviews⟩ := c.views_eq
  have hstep : step ⟨goal :: stack, c.views⟩ = some ⟨more ++ stack, c.views⟩ := by
    rw [hviews]
    exact step_leave hmove
  exact behind (.refl c) (.single hstep) h

/-- The nearest goal takes the token. -/
theorem take (htakes : c.Takes test token c₁) (hmove : goal.move c.view = .take more)
    (h : Pursues (more ++ stack) c₁ attempt after) :
    Pursues (goal :: stack) c attempt after := by
  have hstep : step ⟨goal :: stack, c.views⟩ = some ⟨more ++ stack, c₁.views⟩ := by
    rw [htakes.views]
    exact step_take hmove
  exact behind htakes.reaches (.single hstep) h

/-- Attempts in sequence, the second of which comes only behind what the first one gives. -/
theorem bind_ok (h : Pursues goals c attempt between)
    (hnext : ∀ value c₁ h, attempt = .ok ⟨value, c₁, h⟩ →
      Pursues between c₁ (following ⟨value, c₁, h⟩) after) :
    Pursues goals c (attempt >>= following) after := by
  cases h with
  | @ok reading _ hreaches hrun =>
    obtain ⟨value, c₁, hbelow⟩ := reading
    exact behind hreaches hrun (hnext value c₁ hbelow rfl)
  | error hreaches hrun hmove => exact .error hreaches hrun hmove

/-- Attempts in sequence. -/
theorem bind (h : Pursues goals c attempt between)
    (hnext : ∀ value c₁ h, Pursues between c₁ (following ⟨value, c₁, h⟩) after) :
    Pursues goals c (attempt >>= following) after :=
  h.bind_ok fun value c₁ hbelow _ => hnext value c₁ hbelow

/-- A token of one kind is expected. -/
theorem expect {kind : Kind} (hmove : goal.move c.view = c.view.expect kind more) :
    Pursues (goal :: stack) c (c.expect kind) (more ++ stack) := by
  unfold Cursor.expect
  rcases c.take?_cases kind with ⟨token, c₁, hbelow, htakes, htake⟩ | ⟨hsees, htake⟩
  · simp only [htake]
    refine take htakes ?_ (stay hbelow)
    rw [hmove, TokenView.expect, view_sees, if_pos htakes.sees]
  · simp only [htake]
    apply refuse
    change goal.move c.view = _
    rw [hmove, TokenView.expect, view_sees, hsees, if_neg Bool.false_ne_true]

end Pursues

/-! ## Where loops stop -/

/-- The cursor is where the reading of a phrase in a loop stops. -/
def Phrase.Stops : Phrase → Cursor → Prop
  | .elements, c => c.tokens = [] ∨ c.sees (· == .mark .closeBracket) = true
  | .many _, c | .sourceElements, c => c.sees (· == .mark .closeBrace) = true ∨ c.tokens = []
  | .program, c => c.tokens = []
  | _, _ => True

/-- A phrase ends where none of its loops goes on. -/
theorem Reads.stops {progress : Progress} {phrase : Phrase} {c c₁ : Cursor} {trees : List Tree}
    (h : Reads progress phrase c trees c₁) : phrase.Stops c₁ := by
  induction h with
  | none hend | noElements hend | program _ hend => exact hend
  | lastElement _ _ _ _ hlast => exact .inr hlast
  | more _ _ _ _ _ ih | skippedElement _ _ ih | element _ _ _ _ _ _ _ ih
  | sourceElements _ ih => exact ih
  | _ => trivial

/-! ## Lists -/

section

variable {item : Goal} {readItem : (cursor : Cursor) → Attempt Tree cursor.remaining}

/-- Further items pursue the goal of more. -/
theorem Cursor.pursues_readMoreOf (c : Cursor) (stack : List Goal)
    (hitem : ∀ c₁ : Cursor, c₁.remaining < c.remaining →
      ∀ stack, Pursues (item :: stack) c₁ (readItem c₁) stack) :
    Pursues (.more item :: stack) c (c.readMoreOf readItem) stack := by
  rw [readMoreOf]
  rcases c.take?_cases (.mark .comma) with ⟨comma, c₁, hcomma, htakes, htake⟩ | ⟨hsees, htake⟩
  · simp only [htake]
    refine .take htakes (if_pos htakes.seen) ?_
    refine .bind (hitem c₁ hcomma _) fun first c₂ hfirst => ?_
    refine .bind (pursues_readMoreOf c₂ stack fun c₃ hc₃ => hitem c₃ ?_) fun rest c₃ _ => .stay _
    omega
  · simp only [htake]
    exact .leave (if_neg (unseen hsees)) (.stay _)
termination_by c.remaining

/-- A list pursues its first item and more. -/
theorem Cursor.pursues_readListOf (c : Cursor) (stack : List Goal)
    (hitem : ∀ c₁ : Cursor, c₁.remaining ≤ c.remaining →
      ∀ stack, Pursues (item :: stack) c₁ (readItem c₁) stack) :
    Pursues (item :: .more item :: stack) c (c.readListOf readItem) stack := by
  unfold readListOf
  refine .bind (hitem c (Nat.le_refl _) _) fun first c₁ hfirst => ?_
  refine .bind (pursues_readMoreOf c₁ stack fun c₂ hc₂ => hitem c₂ ?_) fun rest c₂ _ => .stay _
  omega

end

/-! ## Expressions -/

/-- The name of a member pursues its goal. -/
theorem Cursor.pursues_readMemberName (c : Cursor) (stack : List Goal) :
    Pursues (.memberName :: stack) c c.readMemberName stack := by
  rw [readMemberName_eq]
  rcases c.take?_cases .name with ⟨name, c₁, hname, htakes, htake⟩ | ⟨hnoName, htake⟩
  · simp only [htake]
    exact .take htakes (if_pos (by rw [htakes.seen, Bool.true_or])) (.stay _)
  simp only [htake]
  rcases c.takeIf?_cases Kind.isWord with ⟨word, c₁, hword, htakes, htake⟩ | ⟨hnoWord, htake⟩
  · simp only [htake]
    exact .take htakes (if_pos (by rw [htakes.seen, Bool.or_true])) (.stay _)
  · simp only [htake]
    exact .refuse (by simp [move, Goal.move, hnoName, hnoWord])

namespace Cursor

mutual

/-- A sequence pursues its goals. -/
theorem pursues_readSequence (c : Cursor) (stack : List Goal) :
    Pursues (Goal.sequence ++ stack) c c.readSequence stack := by
  rw [readSequence, readCommaList_eq]
  have hitem (c₁ : Cursor) (hc₁ : c₁.remaining ≤ c.remaining) (stack : List Goal) :=
    pursues_readAssignment c₁ stack
  exact .bind (pursues_readListOf c stack hitem) fun list c₁ _ => .stay _
termination_by (c.remaining, 32)
decreasing_by all_goals simp only [lex_iff]; omega

/-- An assignment pursues its goal. -/
theorem pursues_readAssignment (c : Cursor) (stack : List Goal) :
    Pursues (.assignment :: stack) c c.readAssignment stack := by
  rw [readAssignment]
  refine .leave rfl (.bind (pursues_readBinary c .disjunction _) fun target c₁ htarget => ?_)
  rcases c₁.takeIf?_cases Kind.isAssignment with
    ⟨sign, c₂, hsign, htakes, htake⟩ | ⟨hsees, htake⟩
  · simp only [htake]
    refine .take htakes (if_pos htakes.seen) ?_
    exact .bind (pursues_readAssignment c₂ stack) fun value c₃ _ => .stay _
  · simp only [htake]
    exact .leave (if_neg (unseen hsees)) (.stay _)
termination_by (c.remaining, 30)
decreasing_by all_goals simp only [lex_iff, Level.looseness_disjunction]; omega

/-- An operation of a level pursues its goal. -/
theorem pursues_readBinary (c : Cursor) (level : Level) (stack : List Goal) :
    Pursues (.binary level :: stack) c (c.readBinary level) stack := by
  rw [readBinary]
  refine .leave rfl (.bind (pursues_readOperand c level _) fun left c₁ hleft => ?_)
  exact .bind (pursues_readOperations c₁ level left stack) fun tree c₂ _ => .stay _
termination_by (c.remaining, 6 + 2 * level.looseness)
decreasing_by all_goals simp only [lex_iff]; omega

/-- An operand of a level pursues its goal. -/
theorem pursues_readOperand (c : Cursor) (level : Level) (stack : List Goal) :
    Pursues (level.operandGoal :: stack) c (c.readOperand level) stack := by
  rw [readOperand]
  split
  · rename_i tighter htighter
    have := Level.looseness_of_tighter? htighter
    have hgoal : level.operandGoal = .binary tighter := by rw [Level.operandGoal, htighter]
    rw [hgoal]
    exact pursues_readBinary c tighter stack
  · rename_i htighter
    have hgoal : level.operandGoal = .power := by rw [Level.operandGoal, htighter]
    rw [hgoal]
    exact pursues_readPower c stack
termination_by (c.remaining, 5 + 2 * level.looseness)
decreasing_by all_goals simp only [lex_iff]; omega

/-- Further operations pursue the goal of the level's tail. -/
theorem pursues_readOperations (c : Cursor) (level : Level) (left : Tree) (stack : List Goal) :
    Pursues (.binaryTail level :: stack) c (c.readOperations level left) stack := by
  rw [readOperations]
  rcases c.takeIf?_cases level.accepts with ⟨sign, c₁, hsign, htakes, htake⟩ | ⟨hsees, htake⟩
  · simp only [htake]
    refine .take htakes (if_pos htakes.seen) ?_
    refine .bind (pursues_readOperand c₁ level _) fun right c₂ hright => ?_
    exact .bind (pursues_readOperations c₂ level _ stack) fun tree c₃ _ => .stay _
  · simp only [htake]
    exact .leave (if_neg (unseen hsees)) (.stay _)
termination_by (c.remaining, 0)
decreasing_by all_goals simp only [lex_iff]; omega

/-- A power pursues its goal. -/
theorem pursues_readPower (c : Cursor) (stack : List Goal) :
    Pursues (.power :: stack) c c.readPower stack := by
  rw [readPower]
  refine .leave rfl (.bind (pursues_readSigned c _) fun base c₁ hbase => ?_)
  rcases c₁.take?_cases (.mark .power) with ⟨sign, c₂, hsign, htakes, htake⟩ | ⟨hsees, htake⟩
  · simp only [htake]
    refine .take htakes (if_pos htakes.seen) ?_
    exact .bind (pursues_readPower c₂ stack) fun exponent c₃ _ => .stay _
  · simp only [htake]
    exact .leave (if_neg (unseen hsees)) (.stay _)
termination_by (c.remaining, 4)
decreasing_by all_goals simp only [lex_iff]; omega

/-- A signed expression pursues its goal. -/
theorem pursues_readSigned (c : Cursor) (stack : List Goal) :
    Pursues (.signed :: stack) c c.readSigned stack := by
  rw [readSigned]
  rcases c.takeIf?_cases Kind.isPrefixSign with ⟨sign, c₁, hsign, htakes, htake⟩ | ⟨hsees, htake⟩
  · simp only [htake]
    refine .take htakes (if_pos htakes.seen) ?_
    exact .bind (pursues_readSigned c₁ stack) fun operand c₂ _ => .stay _
  · simp only [htake]
    exact .leave (if_neg (unseen hsees)) (pursues_readStepped c stack)
termination_by (c.remaining, 3)
decreasing_by all_goals simp only [lex_iff]; omega

/-- A stepped expression pursues its goal. -/
theorem pursues_readStepped (c : Cursor) (stack : List Goal) :
    Pursues (.stepped :: stack) c c.readStepped stack := by
  rw [readStepped]
  refine .leave rfl (.bind (pursues_readChain c _) fun operand c₁ hoperand => ?_)
  rcases c₁.takeIf?_cases fun kind => kind.isStep && !c₁.newlineBefore with
    ⟨sign, c₂, hsign, htakes, htake⟩ | ⟨hsees, htake⟩
  · simp only [htake]
    rw [← c₁.view_newlineBefore] at htakes
    exact .take htakes (if_pos htakes.seen) (.stay _)
  · simp only [htake]
    rw [← c₁.view_newlineBefore] at hsees
    exact .leave (if_neg (unseen hsees)) (.stay _)
termination_by (c.remaining, 2)
decreasing_by all_goals simp only [lex_iff]; omega

/-- A chain pursues its goal. -/
theorem pursues_readChain (c : Cursor) (stack : List Goal) :
    Pursues (.chain :: stack) c c.readChain stack := by
  rw [readChain]
  refine .leave rfl (.bind (pursues_readPrimary c _) fun subject c₁ hsubject => ?_)
  exact .bind (pursues_readAccesses c₁ subject stack) fun tree c₂ _ => .stay _
termination_by (c.remaining, 1)
decreasing_by all_goals simp only [lex_iff]; omega

/-- Further accesses pursue the goal of the chain's tail. -/
theorem pursues_readAccesses (c : Cursor) (subject : Tree) (stack : List Goal) :
    Pursues (.chainTail :: stack) c (c.readAccesses subject) stack := by
  rw [readAccesses]
  rcases c.take?_cases (.mark .dot) with ⟨dot, c₁, hdot, htakes, htake⟩ | ⟨hnoDot, htake⟩
  · simp only [htake]
    refine .take htakes (if_pos htakes.seen) ?_
    refine .bind (pursues_readMemberName c₁ _) fun name c₂ hname => ?_
    exact .bind (pursues_readAccesses c₂ _ stack) fun tree c₃ _ => .stay _
  simp only [htake]
  rcases c.take?_cases (.mark .openBracket) with
    ⟨left, c₁, hleft, htakes, htake⟩ | ⟨hnoBracket, htake⟩
  · simp only [htake]
    refine .take htakes ((if_neg (unseen hnoDot)).trans (if_pos htakes.seen)) ?_
    refine .bind (pursues_readSequence c₁ _) fun index c₂ hindex => ?_
    refine .bind (.expect rfl) fun right c₃ hright => ?_
    change c₃.remaining < c₂.remaining at hright
    exact .bind (pursues_readAccesses c₃ _ stack) fun tree c₄ _ => .stay _
  simp only [htake]
  rcases c.take?_cases (.mark .openParen) with
    ⟨left, c₁, hleft, htakes, htake⟩ | ⟨hnoParen, htake⟩
  · simp only [htake]
    refine .take htakes ((if_neg (unseen hnoDot)).trans
      ((if_neg (unseen hnoBracket)).trans (if_pos htakes.seen))) ?_
    refine .bind (pursues_readArguments c₁ _ _) fun arguments c₂ harguments => ?_
    exact .bind (pursues_readAccesses c₂ _ stack) fun tree c₃ _ => .stay _
  · simp only [htake]
    exact .leave ((if_neg (unseen hnoDot)).trans
      ((if_neg (unseen hnoBracket)).trans (if_neg (unseen hnoParen)))) (.stay _)
termination_by (c.remaining, 0)
decreasing_by all_goals simp only [lex_iff]; omega

/-- Arguments pursue their goal. -/
theorem pursues_readArguments (c : Cursor) (left : Tree) (stack : List Goal) :
    Pursues (.arguments :: stack) c (c.readArguments left) stack := by
  rw [readArguments]
  rcases c.take?_cases (.mark .closeParen) with ⟨right, c₁, hright, htakes, htake⟩ | ⟨hsees, htake⟩
  · simp only [htake]
    exact .take htakes (if_pos htakes.seen) (.stay _)
  · simp only [htake, readCommaList_eq]
    refine .leave (if_neg (unseen hsees)) ?_
    have hitem (c₁ : Cursor) (hc₁ : c₁.remaining ≤ c.remaining) (stack : List Goal) :=
      pursues_readAssignment c₁ stack
    refine .bind (pursues_readListOf c _ hitem) fun list c₁ _ => ?_
    exact .bind (.expect rfl) fun right c₂ _ => .stay _
termination_by (c.remaining, 33)
decreasing_by all_goals simp only [lex_iff]; omega

/-- A primary expression pursues its goal. -/
theorem pursues_readPrimary (c : Cursor) (stack : List Goal) :
    Pursues (.primary :: stack) c c.readPrimary stack := by
  rw [readPrimary]
  rcases c.takeIf?_cases Kind.isAtom with ⟨token, c₁, htoken, htakes, htake⟩ | ⟨hnoAtom, htake⟩
  · simp only [htake]
    exact .take htakes (if_pos htakes.seen) (.stay _)
  simp only [htake]
  rcases c.take?_cases (.mark .openBracket) with
    ⟨left, c₁, hleft, htakes, htake⟩ | ⟨hnoBracket, htake⟩
  · simp only [htake]
    refine .take htakes ((if_neg (unseen hnoAtom)).trans (if_pos htakes.seen)) ?_
    refine .bind_ok (pursues_readElements c₁ stack) fun elements c₂ helements hread => ?_
    have hstops : c₂.tokens = [] ∨ c₂.sees (· == .mark .closeBracket) = true :=
      (reads_of_readElements hread).stops
    refine .bind (.expect (if_pos ?_)) fun right c₃ _ => .stay _
    simpa using hstops
  simp only [htake]
  rcases c.take?_cases (.mark .openParen) with
    ⟨left, c₁, hleft, htakes, htake⟩ | ⟨hnoParen, htake⟩
  · simp only [htake]
    refine .take htakes ((if_neg (unseen hnoAtom)).trans
      ((if_neg (unseen hnoBracket)).trans (if_pos htakes.seen))) ?_
    refine .bind (pursues_readSequence c₁ _) fun inner c₂ hinner => ?_
    exact .bind (.expect rfl) fun right c₃ _ => .stay _
  · simp only [htake]
    exact .refuse (by simp [move, Goal.move, hnoAtom, hnoBracket, hnoParen])
termination_by (c.remaining, 0)
decreasing_by all_goals simp only [lex_iff]; omega

/-- The goal stays the same up to the closing bracket. -/
theorem pursues_readElements (c : Cursor) (stack : List Goal) :
    Pursues (.elements :: stack) c c.readElements (.elements :: stack) := by
  rw [readElements]
  by_cases hend : c.tokens.isEmpty || c.isAt .closeBracket
  · rw [if_pos hend]
    exact .stay _
  rw [if_neg hend]
  have hgoesOn : ¬ (c.view.isEnd || c.view.sees (· == .mark .closeBracket)) = true := by
    rw [view_isEnd, view_sees, ← isAt_eq_sees]
    exact hend
  rcases c.take?_cases (.mark .comma) with ⟨comma, c₁, hcomma, htakes, htake⟩ | ⟨hnoComma, htake⟩
  · simp only [htake]
    refine .take htakes ((if_neg hgoesOn).trans (if_pos htakes.seen)) ?_
    exact .bind (pursues_readElements c₁ stack) fun rest c₂ _ => .stay _
  simp only [htake]
  refine .leave ((if_neg hgoesOn).trans (if_neg (unseen hnoComma))) ?_
  refine .bind (pursues_readAssignment c _) fun value c₁ hvalue => ?_
  dsimp only
  by_cases hlast : c₁.isAt .closeBracket
  · rw [if_pos hlast]
    rw [isAt_eq_sees, ← view_sees] at hlast
    exact .leave (if_pos hlast) (.stay _)
  · rw [if_neg hlast]
    rw [isAt_eq_sees, ← view_sees] at hlast
    refine .bind (.expect (if_neg hlast)) fun comma c₂ hcomma => ?_
    change c₂.remaining < c₁.remaining at hcomma
    exact .bind (pursues_readElements c₂ stack) fun rest c₃ _ => .stay _
termination_by (c.remaining, 34)
decreasing_by all_goals simp only [lex_iff]; omega

end

/-! ## Parts of statements -/

/-- The end of a statement pursues its goal. -/
theorem pursues_readStatementEnd (c : Cursor) (stack : List Goal) :
    Pursues (.statementEnd :: stack) c c.readStatementEnd stack := by
  unfold readStatementEnd
  rcases c.take?_cases (.mark .semicolon) with
    ⟨semicolon, c₁, hsemicolon, htakes, htake⟩ | ⟨hsees, htake⟩
  · simp only [htake]
    exact .take htakes (if_pos htakes.seen) (.stay _)
  simp only [htake, isAt_eq_sees]
  rw [← view_sees, ← view_isEnd, ← view_newlineBefore]
  by_cases hend : (c.view.sees (· == .mark .closeBrace) || c.view.isEnd || c.view.newlineBefore) =
      true
  · rw [if_pos hend]
    exact .leave ((if_neg (unseen hsees)).trans (if_pos hend)) (.stay _)
  · rw [if_neg hend]
    exact .refuse ((if_neg (unseen hsees)).trans (if_neg hend))

/-- A name pursues a goal that expects one. -/
theorem pursues_readName {goal : Goal} {more : List Goal} (c : Cursor) (stack : List Goal)
    (hmove : goal.move c.view = c.view.expect .name more) :
    Pursues (goal :: stack) c c.readName (more ++ stack) :=
  .bind (.expect hmove) fun _ _ _ => .stay _

/-- So does a name to assign to. -/
theorem pursues_readAssignable {goal : Goal} {more : List Goal} (c : Cursor) (stack : List Goal)
    (hmove : goal.move c.view = c.view.expect .name more) :
    Pursues (goal :: stack) c c.readAssignable (more ++ stack) :=
  .bind (pursues_readName c stack hmove) fun _ _ _ => .stay _

/-- A declarator pursues its goal. -/
theorem pursues_readDeclarator (c : Cursor) (stack : List Goal) :
    Pursues (.declarator :: stack) c c.readDeclarator stack := by
  refine .bind (pursues_readAssignable c stack rfl) fun name c₁ hname => ?_
  rcases c₁.take?_cases (.mark .assign) with ⟨sign, c₂, hsign, htakes, htake⟩ | ⟨hsees, htake⟩
  · simp only [htake]
    refine .take htakes (if_pos htakes.seen) ?_
    exact .bind (pursues_readAssignment c₂ stack) fun value c₃ _ => .stay _
  · simp only [htake]
    exact .leave (if_neg (unseen hsees)) (.stay _)

/-- A parameter pursues its goal. -/
theorem pursues_readParameter (c : Cursor) (stack : List Goal) :
    Pursues (.parameter :: stack) c c.readParameter stack :=
  .bind (pursues_readAssignable c stack rfl) fun _ _ _ => .stay _

/-- Parameters pursue their goal. -/
theorem pursues_readParameters (c : Cursor) (stack : List Goal) :
    Pursues (.parameters :: stack) c c.readParameters stack := by
  unfold readParameters
  rw [isAt_eq_sees, ← view_sees]
  by_cases hnone : c.view.sees (· == .mark .closeParen) = true
  · rw [if_pos hnone]
    exact .leave (if_pos hnone) (.stay _)
  · rw [if_neg hnone]
    refine .leave (if_neg hnone) ?_
    refine .bind (pursues_readListOf c stack ?_) fun list c₁ _ => .stay _
    exact fun c₁ _ stack => pursues_readParameter c₁ stack

/-- A returned value pursues its goal. -/
theorem pursues_readReturned (c : Cursor) (stack : List Goal) :
    Pursues (.returned :: stack) c c.readReturned stack := by
  unfold readReturned
  rw [isAt_eq_sees, isAt_eq_sees, ← view_sees, ← view_sees, ← view_isEnd, ← view_newlineBefore]
  by_cases hnone : (c.view.sees (· == .mark .semicolon) || c.view.sees (· == .mark .closeBrace) ||
      c.view.isEnd || c.view.newlineBefore) = true
  · rw [if_pos hnone]
    exact .leave (if_pos hnone) (.stay _)
  · rw [if_neg hnone]
    refine .leave (if_neg hnone) ?_
    exact .bind (pursues_readSequence c stack) fun sequence c₁ _ => .stay _

/-- A condition pursues its goal. -/
theorem pursues_readCondition (c : Cursor) (stack : List Goal) :
    Pursues (.condition :: stack) c c.readCondition stack := by
  refine .bind (.expect rfl) fun left c₁ _ => ?_
  refine .bind (pursues_readSequence c₁ _) fun condition c₂ _ => ?_
  exact .bind (.expect rfl) fun right c₃ _ => .stay _

/-! ## Statements -/

/-- A statement that a token of one kind begins expects that token. -/
theorem move_statement {c : Cursor} {kind : Kind} {more : List Goal} (hkind : c.kind? = some kind)
    (hmove : Goal.moveStatement (.ofFirst (some kind)) = .take more) :
    Goal.statement.move c.view = c.view.expect kind more := by
  have hsees : c.view.sees (· == kind) = true := by
    simp [sees, hkind]
  rw [TokenView.expect, if_pos hsees, ← hmove, ← hkind, ← view_kind?]
  rfl

/-- A declaration pursues a statement. -/
theorem pursues_readVariableStatement (c : Cursor) (stack : List Goal)
    (hsees : c.sees Kind.isDeclarer = true) :
    Pursues (.statement :: stack) c c.readVariableStatement stack := by
  unfold readVariableStatement
  rcases c.takeIf?_cases Kind.isDeclarer with
    ⟨modifier, c₁, hmodifier, htakes, htake⟩ | ⟨hnone, htake⟩
  · simp only [htake]
    obtain ⟨kind, hkind, hdeclarer⟩ := sees_iff.mp hsees
    have hmove : Goal.statement.move c.view =
        .take [.declarator, .more .declarator, .statementEnd] := by
      change Goal.moveStatement (.ofFirst c.view.kind?) = _
      rw [view_kind?, hkind, Kind.ofFirst_of_isDeclarer hdeclarer]
      rfl
    refine .take htakes hmove ?_
    refine .bind (pursues_readListOf c₁ _ ?_) fun list c₂ _ => ?_
    · exact fun c₂ _ stack => pursues_readDeclarator c₂ stack
    · exact .bind (pursues_readStatementEnd c₂ stack) fun ending c₃ _ => .stay _
  · rw [hnone] at hsees
    cases hsees

/-- An expression statement pursues a statement. -/
theorem pursues_readExpressionStatement (c : Cursor) (stack : List Goal)
    (hfirst : Phrase.ofFirst c.kind? = .expressionStatement) :
    Pursues (.statement :: stack) c c.readExpressionStatement stack := by
  have hmove : Goal.statement.move c.view = .leave (Goal.sequence ++ [.statementEnd]) := by
    change Goal.moveStatement (.ofFirst c.view.kind?) = _
    rw [view_kind?, hfirst]
    rfl
  refine .leave hmove ?_
  refine .bind (pursues_readSequence c _) fun sequence c₁ _ => ?_
  exact .bind (pursues_readStatementEnd c₁ stack) fun ending c₂ _ => .stay _

/-- An empty statement pursues one. -/
theorem pursues_readEmptyStatement (c : Cursor) (stack : List Goal)
    (hkind : c.kind? = some (.mark .semicolon)) :
    Pursues (.statement :: stack) c c.readEmptyStatement stack :=
  .bind (.expect (move_statement hkind rfl)) fun _ _ _ => .stay _

/-- A `return` pursues a statement. -/
theorem pursues_readReturn (c : Cursor) (stack : List Goal)
    (hkind : c.kind? = some (.word .returnWord)) :
    Pursues (.statement :: stack) c c.readReturn stack := by
  refine .bind (.expect (move_statement hkind rfl)) fun keyword c₁ _ => ?_
  refine .bind (pursues_readReturned c₁ _) fun value c₂ _ => ?_
  exact .bind (pursues_readStatementEnd c₂ stack) fun ending c₃ _ => .stay _

/-- The goals ask for one more statement up to a closing brace or the end of the input. -/
def AskStatements (goals : List Goal) : Prop :=
  ∀ (view : TokenView) (views : List TokenView),
    ¬ (view.sees (· == .mark .closeBrace) || view.isEnd) = true →
      step ⟨goals, view :: views⟩ = some ⟨.statement :: goals, view :: views⟩

/-- Inside braces, statements are asked for. -/
theorem askStatements_inside (stack : List Goal) : AskStatements (.inside :: stack) := by
  intro view views hgoesOn
  have hmove : move (.inside :: stack) view = .leave [.statement, .inside] := if_neg hgoesOn
  exact step_leave hmove

/-- At the top, statements are asked for. -/
theorem askStatements_nil : AskStatements [] := by
  intro view views hgoesOn
  simp only [Bool.or_eq_true, not_or] at hgoesOn
  have hmove : move [] view = .leave [.statement] :=
    (if_neg hgoesOn.2).trans (if_neg hgoesOn.1)
  exact step_leave hmove

/-- A closing brace is expected where statements have come to their end. -/
theorem pursues_closeBrace {c : Cursor} (stack : List Goal)
    (hstops : c.sees (· == .mark .closeBrace) = true ∨ c.tokens = []) :
    Pursues (.inside :: stack) c (c.expectMark .closeBrace) stack := by
  have hend : (c.view.sees (· == .mark .closeBrace) || c.view.isEnd) = true := by
    simpa using hstops
  have hmove : Goal.inside.move c.view = c.view.expect (.mark .closeBrace) [] := if_pos hend
  exact .expect hmove

mutual

/-- A statement pursues its goal. -/
theorem pursues_readStatement (c : Cursor) (stack : List Goal) :
    Pursues (.statement :: stack) c c.readStatement stack := by
  rw [readStatement_eq]
  refine .bind ?_ fun inner c₁ _ => .stay _
  generalize hform : Phrase.ofFirst c.kind? = form
  have hfirst := hform
  unfold Phrase.ofFirst at hfirst
  split at hfirst <;> subst hfirst
  case h_1 hkind | h_2 hkind | h_3 hkind =>
    exact pursues_readVariableStatement c stack (by simp [sees, hkind, Kind.isDeclarer])
  case h_4 hkind => exact pursues_readFunction c stack hkind
  case h_5 hkind => exact pursues_readConditional c stack hkind
  case h_6 hkind => exact pursues_readLoop c stack hkind
  case h_7 hkind => exact pursues_readReturn c stack hkind
  case h_8 hkind => exact pursues_readBlock c stack hkind
  case h_9 hkind => exact pursues_readEmptyStatement c stack hkind
  case h_10 => exact pursues_readExpressionStatement c stack hform
termination_by (c.remaining, 1)
decreasing_by all_goals simp only [lex_iff]; omega

/-- Statements pursue goals that ask for them. -/
theorem pursues_readStatements (c : Cursor) {goals : List Goal} (hgoals : AskStatements goals) :
    Pursues goals c c.readStatements goals := by
  rw [readStatements, isAt_eq_sees, ← view_sees, ← view_isEnd]
  by_cases hend : (c.view.sees (· == .mark .closeBrace) || c.view.isEnd) = true
  · rw [if_pos hend]
    exact .stay _
  · rw [if_neg hend]
    obtain ⟨later, hviews⟩ := c.views_eq
    have hstep : step ⟨goals, c.views⟩ = some ⟨.statement :: goals, c.views⟩ := by
      rw [hviews]
      exact hgoals c.view later hend
    refine .behind (.refl c) (.single hstep) ?_
    refine .bind (pursues_readStatement c goals) fun statement c₁ hstatement => ?_
    exact .bind (pursues_readStatements c₁ hgoals) fun rest c₂ _ => .stay _
termination_by (c.remaining, 2)
decreasing_by all_goals simp only [lex_iff]; omega

/-- So do source elements. -/
theorem pursues_readSourceElements (c : Cursor) {goals : List Goal} (hgoals : AskStatements goals) :
    Pursues goals c c.readSourceElements goals := by
  rw [readSourceElements]
  exact .bind (pursues_readStatements c hgoals) fun statements c₁ _ => .stay _
termination_by (c.remaining, 3)
decreasing_by all_goals simp only [lex_iff]; omega

/-- A function pursues a statement. -/
theorem pursues_readFunction (c : Cursor) (stack : List Goal)
    (hkind : c.kind? = some (.word .functionWord)) :
    Pursues (.statement :: stack) c c.readFunction stack := by
  rw [readFunction]
  refine .bind (.expect (move_statement hkind rfl)) fun keyword c₁ hkeyword => ?_
  refine .bind (pursues_readName c₁ stack rfl) fun name c₂ hname => ?_
  refine .bind (.expect rfl) fun left c₃ hleft => ?_
  refine .bind (pursues_readParameters c₃ _) fun parameters c₄ hparameters => ?_
  refine .bind (.expect rfl) fun right c₅ hright => ?_
  refine .bind (.expect rfl) fun opening c₆ hopening => ?_
  have hasks := askStatements_inside stack
  refine .bind_ok (pursues_readSourceElements c₆ hasks) fun elements c₇ helements hread => ?_
  have hstops : c₇.sees (· == .mark .closeBrace) = true ∨ c₇.tokens = [] :=
    (reads_of_readSourceElements hread).stops
  exact .bind (pursues_closeBrace stack hstops) fun closing c₈ _ => .stay _
termination_by (c.remaining, 0)
decreasing_by all_goals simp only [lex_iff]; omega

/-- A block pursues a statement. -/
theorem pursues_readBlock (c : Cursor) (stack : List Goal)
    (hkind : c.kind? = some (.mark .openBrace)) :
    Pursues (.statement :: stack) c c.readBlock stack := by
  rw [readBlock]
  refine .bind (.expect (move_statement hkind rfl)) fun opening c₁ hopening => ?_
  have hasks := askStatements_inside stack
  refine .bind_ok (pursues_readStatements c₁ hasks) fun statements c₂ hstatements hread => ?_
  have hstops : c₂.sees (· == .mark .closeBrace) = true ∨ c₂.tokens = [] :=
    (reads_of_readStatements hread id).stops
  exact .bind (pursues_closeBrace stack hstops) fun closing c₃ _ => .stay _
termination_by (c.remaining, 0)
decreasing_by all_goals simp only [lex_iff]; omega

/-- A conditional pursues a statement. -/
theorem pursues_readConditional (c : Cursor) (stack : List Goal)
    (hkind : c.kind? = some (.word .ifWord)) :
    Pursues (.statement :: stack) c c.readConditional stack := by
  rw [readConditional]
  refine .bind (.expect (move_statement hkind rfl)) fun keyword c₁ hkeyword => ?_
  refine .bind (pursues_readCondition c₁ _) fun condition c₂ hcondition => ?_
  refine .bind (pursues_readStatement c₂ _) fun consequence c₃ hconsequence => ?_
  dsimp only
  rcases c₃.take?_cases (.word .elseWord) with
    ⟨otherwise, c₄, hotherwise, htakes, htake⟩ | ⟨hsees, htake⟩
  · simp only [htake]
    refine .take htakes (if_pos htakes.seen) ?_
    exact .bind (pursues_readStatement c₄ stack) fun alternative c₅ _ => .stay _
  · simp only [htake]
    exact .leave (if_neg (unseen hsees)) (.stay _)
termination_by (c.remaining, 0)
decreasing_by all_goals simp only [lex_iff]; omega

/-- A loop pursues a statement. -/
theorem pursues_readLoop (c : Cursor) (stack : List Goal)
    (hkind : c.kind? = some (.word .whileWord)) :
    Pursues (.statement :: stack) c c.readLoop stack := by
  rw [readLoop]
  refine .bind (.expect (move_statement hkind rfl)) fun keyword c₁ hkeyword => ?_
  refine .bind (pursues_readCondition c₁ _) fun condition c₂ hcondition => ?_
  exact .bind (pursues_readStatement c₂ stack) fun body c₃ _ => .stay _
termination_by (c.remaining, 0)
decreasing_by all_goals simp only [lex_iff]; omega

end

/-- A program is read with no goals ahead: it goes on up to the end of the input. -/
theorem pursues_readProgram (c : Cursor) : Pursues [] c c.readProgram [] := by
  unfold readProgram
  refine .bind_ok (pursues_readSourceElements c askStatements_nil) fun elements c₁ _ hread => ?_
  have hstops : c₁.sees (· == .mark .closeBrace) = true ∨ c₁.tokens = [] :=
    (reads_of_readSourceElements hread).stops
  dsimp only
  by_cases hend : c₁.tokens.isEmpty = true
  · rw [if_pos hend]
    exact .stay _
  · rw [if_neg hend]
    have hbrace : c₁.view.sees (· == .mark .closeBrace) = true := by
      rw [view_sees]
      exact hstops.resolve_right fun hnil => hend (List.isEmpty_iff.mpr hnil)
    rw [← view_isEnd] at hend
    exact .refuse ((if_neg hend).trans (if_pos hbrace))

end Cursor

/-! ## Source texts -/

/-- Where the tokens of a stream begin, and where the input ends. -/
def TokenStream.starts (stream : TokenStream) : List Nat :=
  stream.tokens.map (·.span.start) ++ [stream.endOffset]

/-- A cursor further on stands at one of the tokens or at the end of the input. -/
theorem Cursor.Reaches.start {stream : TokenStream} {c : Cursor} {taken : List TokenView}
    (h : (Cursor.ofStream stream).Reaches c) (hviews : stream.views = taken ++ c.views) :
    stream.starts[taken.length]? = some c.start := by
  obtain ⟨passed, hpassed⟩ := h.tokens
  change passed ++ c.tokens = stream.tokens at hpassed
  have hend : c.endOffset = stream.endOffset := h.endOffset
  have hlength : taken.length = passed.length := by
    have hlengths := congrArg List.length hviews
    simp only [TokenStream.views, Cursor.views, ← hpassed, List.length_append, List.length_map,
      List.length_singleton] at hlengths
    omega
  have hstarts : stream.starts =
      passed.map (·.span.start) ++ (c.tokens.map (·.span.start) ++ [c.endOffset]) := by
    rw [TokenStream.starts, ← hpassed, hend, List.map_append, List.append_assoc]
  rw [hstarts, hlength, List.getElem?_append_right (by simp)]
  unfold Cursor.start
  cases c.tokens <;> simp

/-- A source text that is read makes up a program. -/
theorem accepts_of_parse {tree : Tree} (h : Tree.parse source = .ok tree) :
    Accepts (TokenStream.ofSource source).views := by
  unfold Tree.parse at h
  have hpursues := (Cursor.ofSource source).pursues_readProgram
  cases hread : (Cursor.ofSource source).readProgram with
  | error refusal =>
    rw [hread] at h
    cases h
  | ok reading =>
    rw [hread] at hpursues
    cases hpursues with
    | ok _ hleads =>
      have hend : reading.next.tokens = [] := (reads_of_readProgram hread).stops
      have hlast : reading.next.views = [⟨none, "", reading.next.newlineBeforeEnd⟩] := by
        rw [Cursor.views, hend]
        rfl
      rw [hlast] at hleads
      exact ⟨_, rfl, hleads⟩

/-- A source text that is not read is refused at the token that the error names. -/
theorem refuses_of_parse {error : SyntaxError} (h : Tree.parse source = .error error) :
    ∃ taken view, Refuses (TokenStream.ofSource source).views taken view error.expected ∧
      error.found = view.kind?.map (fun _ => view.text) ∧
      (TokenStream.ofSource source).starts[taken.length]?.map (Source.position source) =
        some error.position := by
  unfold Tree.parse at h
  have hpursues := (Cursor.ofSource source).pursues_readProgram
  cases hread : (Cursor.ofSource source).readProgram with
  | ok reading =>
    rw [hread] at h
    cases h
  | error refusal =>
    rw [hread] at h hpursues
    cases h
    cases hpursues with
    | @error _ _ goals hreaches hleads hmove =>
      obtain ⟨taken, -, hviews, -, -, -⟩ := hleads.exists_arrival
      obtain ⟨later, hlater⟩ := refusal.stoppedAt.views_eq
      refine ⟨taken, refusal.stoppedAt.view, ⟨goals, later, ?_, ?_, hmove⟩, ?_, ?_⟩
      · rw [← hlater]
        exact hviews
      · rw [← hlater]
        exact hleads
      · unfold Refusal.toError Cursor.view
        cases refusal.stoppedAt.tokens <;> rfl
      · rw [hreaches.start hviews]
        rfl

/-- Source texts that make up a program are read. -/
theorem exists_parse_of_accepts (h : Accepts (TokenStream.ofSource source).views) :
    ∃ tree, Tree.parse source = .ok tree := by
  cases hparse : Tree.parse source with
  | ok tree => exact ⟨tree, rfl⟩
  | error error =>
    obtain ⟨taken, view, hrefuses, -⟩ := refuses_of_parse hparse
    exact absurd h hrefuses.not_accepts

/-- Source texts that do not make up a program are not read. -/
theorem exists_error_of_not_accepts (h : ¬ Accepts (TokenStream.ofSource source).views) :
    ∃ error, Tree.parse source = .error error := by
  cases hparse : Tree.parse source with
  | ok tree => exact absurd (accepts_of_parse hparse) h
  | error error => exact ⟨error, rfl⟩

end TreeScript
