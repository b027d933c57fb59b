import TreeScript.Proofs.Tree.Derivation
import TreeScript.Tree.Parse

/-!
# Derivations are read

The readers follow every derivation: where a phrase can be read from one cursor to another, its
reader succeeds, with the trees of the derivation and at its last cursor. `Given` states this for
each phrase in terms of its own reader. An expression that is only begun has no reader; what is
stated of it is that the reader of the whole expression goes on from where it stops. For a source
text, `Tree.parse` and derivations then say the same.
-/

namespace TreeScript

open TreeScript.Tree (wrap branch)

variable {rest trees : List Tree} {item : Phrase}

/-- An attempt succeeds with a value and ends at a cursor. -/
def Gives {α : Type} {bound : Nat} (attempt : Attempt α bound) (value : α) (next : Cursor) : Prop :=
  ∃ h, attempt = .ok ⟨value, next, h⟩

/-- An attempt succeeds with the only tree of a list. -/
def GivesOne {bound : Nat} (attempt : Attempt Tree bound) : List Tree → Cursor → Prop
  | [tree], next => Gives attempt tree next
  | _, _ => False

namespace Gives

variable {α β : Type} {bound wider : Nat}
variable {attempt : Attempt α bound} {following : Reading α bound → Attempt β wider}

/-- A reading that is given is given. -/
theorem ok {value : α} {next : Cursor} (h : next.remaining < bound) :
    Gives (.ok ⟨value, next, h⟩ : Attempt α bound) value next := ⟨h, rfl⟩

/-- Attempts in sequence. -/
theorem bind {value : α} {c : Cursor} {result : β} {next : Cursor} (h : Gives attempt value c)
    (hnext : ∀ h, Gives (following ⟨value, c, h⟩) result next) :
    Gives (attempt >>= following) result next := by
  obtain ⟨hbelow, rfl⟩ := h
  exact hnext hbelow

/-- A sequence of attempts succeeds only if both of them do. -/
theorem of_bind {result : β} {next : Cursor} (h : Gives (attempt >>= following) result next) :
    ∃ reading, attempt = .ok reading ∧ Gives (following reading) result next := by
  obtain ⟨hbelow, heq⟩ := h
  obtain ⟨reading, hread, hfollowing⟩ := bind_eq_ok.mp heq
  exact ⟨reading, hread, hbelow, hfollowing⟩

end Gives

namespace Cursor

variable {test : Kind → Bool}

/-- A token that is there is taken. -/
theorem Takes.takeIf? {c c₁ : Cursor} {token : Token} (h : c.Takes test token c₁) :
    ∃ h, c.takeIf? test = some ⟨token.leaf, c₁, h⟩ := by
  cases h with
  | intro hkind =>
    refine ⟨Nat.lt_succ_self _, ?_⟩
    simp [Cursor.takeIf?, hkind, Token.leaf]

/-- A token of the right kind is taken. -/
theorem Takes.take? {kind : Kind} {c c₁ : Cursor} {token : Token}
    (h : c.Takes (· == kind) token c₁) : ∃ h, c.take? kind = some ⟨token.leaf, c₁, h⟩ :=
  h.takeIf?

/-- A token that is expected and there is taken. -/
theorem Takes.expect {kind : Kind} {c c₁ : Cursor} {token : Token}
    (h : c.Takes (· == kind) token c₁) : Gives (c.expect kind) token.leaf c₁ := by
  obtain ⟨hbelow, htake⟩ := h.take?
  unfold Cursor.expect
  rw [htake]
  exact .ok hbelow

/-- A token that is not there is not taken. -/
theorem takeIf?_of_sees {c : Cursor} (h : c.sees test = false) : c.takeIf? test = none := by
  rcases c.takeIf?_cases test with ⟨token, c₁, -, htakes, -⟩ | ⟨-, hnone⟩
  · rw [htakes.sees] at h
    cases h
  · exact hnone

/-- A token of another kind is not taken. -/
theorem take?_of_sees {kind : Kind} {c : Cursor} (h : c.sees (· == kind) = false) :
    c.take? kind = none :=
  takeIf?_of_sees h

end Cursor

open Cursor

/-! ## Lists -/

/-- A list of items is read, with each item wrapped. -/
def GivesList (readItem : (cursor : Cursor) → Attempt Tree cursor.remaining)
    (wrapped : Tree → Tree) (c : Cursor) (trees : List Tree) (next : Cursor) : Prop :=
  ∃ list, Gives (c.readListOf readItem) list next ∧ list.flatten wrapped = trees

section

variable {readItem : (cursor : Cursor) → Attempt Tree cursor.remaining} {wrapped : Tree → Tree}
  {c c₁ c₂ c₃ : Cursor} {tree : Tree}

/-- A list ends where no comma follows. -/
theorem givesList_one (h : Gives (readItem c) tree c₁)
    (hlast : c₁.sees (· == .mark .comma) = false) :
    GivesList readItem wrapped c [wrapped tree] c₁ := by
  have hmore : Gives (c₁.readMoreOf readItem) [] c₁ := by
    rw [readMoreOf, take?_of_sees hlast]
    exact .ok _
  exact ⟨⟨tree, []⟩, h.bind fun _ => hmore.bind fun _ => .ok _, rfl⟩

/-- A list goes on behind a comma. -/
theorem givesList_more {comma : Token} (h : Gives (readItem c) tree c₁)
    (hcomma : c₁.Takes (· == .mark .comma) comma c₂)
    (hrest : GivesList readItem wrapped c₂ rest c₃) :
    GivesList readItem wrapped c (wrapped tree :: comma.leaf :: rest) c₃ := by
  obtain ⟨⟨first, later⟩, hlist, rfl⟩ := hrest
  obtain ⟨⟨other, c', _⟩, hfirst, hlater⟩ := hlist.of_bind
  obtain ⟨⟨others, c'', _⟩, hothers, hend⟩ := hlater.of_bind
  obtain ⟨_, hend⟩ := hend
  cases hend
  have hmore : Gives (c₁.readMoreOf readItem) ((comma.leaf, first) :: later) c₃ := by
    obtain ⟨_, htake⟩ := hcomma.take?
    rw [readMoreOf, htake]
    exact Gives.bind ⟨_, hfirst⟩ fun _ => Gives.bind ⟨_, hothers⟩ fun _ => .ok _
  exact ⟨⟨tree, (comma.leaf, first) :: later⟩, h.bind fun _ => hmore.bind fun _ => .ok _, rfl⟩

end

/-- Expressions with commas between them are a list like any other. -/
theorem readMoreItems_eq (c : Cursor) : c.readMoreItems = c.readMoreOf readAssignment := by
  rw [readMoreItems, readMoreOf]
  rcases c.take?_cases (.mark .comma) with ⟨comma, c₁, hcomma, -, htake⟩ | ⟨-, htake⟩
  · simp only [htake]
    cases hread : c₁.readAssignment with
    | error => rfl
    | ok reading =>
      obtain ⟨item, c₂, hitem⟩ := reading
      change (c₂.readMoreItems >>= _) = (c₂.readMoreOf readAssignment >>= _)
      rw [readMoreItems_eq c₂]
  · simp only [htake]
termination_by c.remaining

/-- A list of expressions is a list of assignments. -/
theorem readCommaList_eq (c : Cursor) : c.readCommaList = c.readListOf readAssignment := by
  rw [readCommaList, readListOf]
  simp only [readMoreItems_eq]

/-! ## Phrases -/

/-- The reader of a phrase gives the trees. -/
def Given : Progress → Phrase → Cursor → List Tree → Cursor → Prop
  | .done, .list (.expression .assignment), c, trees, c₁ => GivesList readAssignment id c trees c₁
  | .done, .list .argument, c, trees, c₁ => GivesList readAssignment (wrap .argument) c trees c₁
  | .done, .list .declarator, c, trees, c₁ => GivesList readDeclarator id c trees c₁
  | .done, .list .parameter, c, trees, c₁ => GivesList readParameter id c trees c₁
  | .done, .many .statement, c, trees, c₁ => Gives c.readStatements trees c₁
  | .done, .many .sourceElement, c, trees, c₁ =>
    ∃ statements, Gives c.readStatements statements c₁ ∧
      statements.map (wrap .sourceElement) = trees
  | .done, .optional .sequence, c, trees, c₁ => Gives c.readReturned trees c₁
  | .done, .optional .parameterList, c, trees, c₁ => Gives c.readParameters trees c₁
  | .done, .identifier, c, trees, c₁ => GivesOne c.readName trees c₁
  | .done, .memberName, c, trees, c₁ => GivesOne c.readMemberName trees c₁
  | .done, .assignable, c, trees, c₁ => GivesOne c.readAssignable trees c₁
  | .done, .expression .assignment, c, trees, c₁ => GivesOne c.readAssignment trees c₁
  | .done, .expression (.level level), c, trees, c₁ => GivesOne (c.readBinary level) trees c₁
  | .done, .expression .power, c, trees, c₁ => GivesOne c.readPower trees c₁
  | .done, .expression .signed, c, trees, c₁ => GivesOne c.readSigned trees c₁
  | .done, .expression .stepped, c, trees, c₁ => GivesOne c.readStepped trees c₁
  | .done, .expression .chain, c, trees, c₁ => GivesOne c.readChain trees c₁
  | .done, .expression .primary, c, trees, c₁ => GivesOne c.readPrimary trees c₁
  | .begun, .expression (.level level), c, [tree], c₁ =>
    ∀ whole c₂, Gives (c₁.readOperations level tree) whole c₂ → Gives (c.readBinary level) whole c₂
  | .begun, .expression .chain, c, [tree], c₁ =>
    ∀ whole c₂, Gives (c₁.readAccesses tree) whole c₂ → Gives c.readChain whole c₂
  | .done, .sequence, c, trees, c₁ => GivesOne c.readSequence trees c₁
  | .done, .argument, c, trees, c₁ =>
    ∃ value, Gives c.readAssignment value c₁ ∧ [wrap .argument value] = trees
  | .done, .arguments, c, trees, c₁ =>
    ∃ left c', c.Takes (· == .mark .openParen) left c' ∧
      GivesOne (c'.readArguments left.leaf) trees c₁
  | .done, .elements, c, trees, c₁ => Gives c.readElements trees c₁
  | .done, .declarator, c, trees, c₁ => GivesOne c.readDeclarator trees c₁
  | .done, .parameter, c, trees, c₁ => GivesOne c.readParameter trees c₁
  | .done, .parameterList, c, trees, c₁ =>
    ∃ list, Gives (c.readListOf readParameter) list c₁ ∧
      [branch .formalParameterList (list.flatten id) c.start] = trees
  | .done, .ending, c, trees, c₁ => GivesOne c.readStatementEnd trees c₁
  | .done, .statement, c, trees, c₁ => GivesOne c.readStatement trees c₁
  | .done, .sourceElement, c, trees, c₁ =>
    ∃ statement, Gives c.readStatement statement c₁ ∧ [wrap .sourceElement statement] = trees
  | .done, .sourceElements, c, trees, c₁ => GivesOne c.readSourceElements trees c₁
  | .done, .program, c, trees, c₁ => GivesOne c.readProgram trees c₁
  | .done, .block, c, trees, c₁ => GivesOne c.readBlock trees c₁
  | .done, .variableStatement, c, trees, c₁ => GivesOne c.readVariableStatement trees c₁
  | .done, .emptyStatement, c, trees, c₁ => GivesOne c.readEmptyStatement trees c₁
  | .done, .expressionStatement, c, trees, c₁ => GivesOne c.readExpressionStatement trees c₁
  | .done, .conditional, c, trees, c₁ => GivesOne c.readConditional trees c₁
  | .done, .loop, c, trees, c₁ => GivesOne c.readLoop trees c₁
  | .done, .returnStatement, c, trees, c₁ => GivesOne c.readReturn trees c₁
  | .done, .function, c, trees, c₁ => GivesOne c.readFunction trees c₁
  -- No other phrases are read.
  | _, _, _, _, _ => True

/-- A statement of a given form is read by the reader of that form. -/
theorem Given.form {form : Phrase} {c c₁ : Cursor} (h : Given .done form c trees c₁)
    (hform : form ∈ Phrase.statementForms) :
    GivesOne (c.readForm form) trees c₁ := by
  simp only [Phrase.statementForms, List.mem_cons, List.not_mem_nil, or_false] at hform
  rcases hform with rfl | rfl | rfl | rfl | rfl | rfl | rfl | rfl <;> exact h

/-- The operands of a level are expressions of the next stronger strength. -/
theorem Given.operand {level : Level} {c c₁ : Cursor} {tree : Tree}
    (h : Given .done (.expression level.operand) c [tree] c₁) :
    Gives (c.readOperand level) tree c₁ := by
  unfold Level.operand at h
  rw [readOperand]
  split
  · rename_i htighter
    rw [htighter] at h
    exact h
  · rename_i htighter
    rw [htighter] at h
    exact h

/-- A condition is read as its three parts. -/
theorem gives_readCondition {c c₁ c₂ c₃ : Cursor} {left right : Token} {condition : Tree}
    (hleft : c.Takes (· == .mark .openParen) left c₁) (h : Gives c₁.readSequence condition c₂)
    (hright : c₂.Takes (· == .mark .closeParen) right c₃) :
    Gives c.readCondition [left.leaf, condition, right.leaf] c₃ :=
  hleft.expect.bind fun _ => h.bind fun _ => hright.expect.bind fun _ => .ok _

/-- A word is no name. -/
theorem Kind.ne_name_of_isWord (kind : Kind) (h : kind.isWord = true) :
    (kind == .name) = false := by
  cases kind with
  | word => rfl
  | _ => cases h

/-- No mark is an expression of its own. -/
theorem Kind.isAtom_of_mark {mark : Mark} (kind : Kind) (h : (kind == .mark mark) = true) :
    kind.isAtom = false := by
  rw [beq_iff_eq.mp h]
  rfl

/-! ## What the readers give

For each reader, what it gives where its parts are given: one statement for each way that it can
go on from the token it looks at. -/

section

open TreeScript.Tree (expression)

variable {c c₁ c₂ c₃ c₄ c₅ c₆ c₇ : Cursor} {sign left right comma keyword : Token}
  {tree target value subject whole : Tree} {items : List Tree} {level : Level}

/-- A word may stand behind a dot. -/
theorem gives_readMemberName_word (hword : c.Takes Kind.isWord sign c₁) :
    Gives c.readMemberName (wrap .identifierName sign.leaf) c₁ := by
  obtain ⟨hbelow, htake⟩ := hword.takeIf?
  have hname := sees_eq_false hword.sees Kind.ne_name_of_isWord
  rw [readMemberName_eq, take?_of_sees hname, htake]
  exact .ok hbelow

/-! ### Operators -/

/-- Without an assignment sign, an operation is all. -/
theorem gives_readAssignment (h : Gives (c.readBinary .disjunction) tree c₁)
    (hsees : c₁.sees Kind.isAssignment = false) : Gives c.readAssignment tree c₁ := by
  rw [readAssignment]
  refine h.bind fun _ => ?_
  simp only [takeIf?_of_sees hsees]
  exact .ok _

/-- An assignment takes another one on its right. -/
theorem gives_readAssignment_sign (htarget : Gives (c.readBinary .disjunction) target c₁)
    (hsign : c₁.Takes Kind.isAssignment sign c₂) (hvalue : Gives c₂.readAssignment value c₃) :
    Gives c.readAssignment (expression [target, sign.assignmentOperator, value]) c₃ := by
  obtain ⟨_, htake⟩ := hsign.takeIf?
  rw [readAssignment]
  refine htarget.bind fun _ => ?_
  simp only [htake, hsign.assignmentOperator]
  exact hvalue.bind fun _ => .ok _

/-- An operand is followed by the operations of its level. -/
theorem gives_readBinary (h : Gives (c.readOperand level) tree c₁)
    (hmore : Gives (c₁.readOperations level tree) whole c₂) :
    Gives (c.readBinary level) whole c₂ := by
  rw [readBinary]
  exact h.bind fun _ => hmore.bind fun _ => .ok _

/-- An operation of a level takes one more operand. -/
theorem gives_readOperations_sign (hsign : c.Takes level.accepts sign c₁)
    (hright : Gives (c₁.readOperand level) value c₂)
    (hmore : Gives (c₂.readOperations level (expression [tree, sign.leaf, value])) whole c₃) :
    Gives (c.readOperations level tree) whole c₃ := by
  obtain ⟨_, htake⟩ := hsign.takeIf?
  rw [readOperations, htake]
  exact hright.bind fun _ => hmore.bind fun _ => .ok _

/-- The operations of a level end where its signs do. -/
theorem gives_readOperations (hsees : c.sees level.accepts = false) :
    Gives (c.readOperations level tree) tree c := by
  rw [readOperations, takeIf?_of_sees hsees]
  exact .ok _

/-- Without a power sign, a base is all. -/
theorem gives_readPower (h : Gives c.readSigned tree c₁)
    (hsees : c₁.sees (· == .mark .power) = false) : Gives c.readPower tree c₁ := by
  rw [readPower]
  refine h.bind fun _ => ?_
  simp only [take?_of_sees hsees]
  exact .ok _

/-- A power takes another one on its right. -/
theorem gives_readPower_sign (hbase : Gives c.readSigned target c₁)
    (hsign : c₁.Takes (· == .mark .power) sign c₂) (hexponent : Gives c₂.readPower value c₃) :
    Gives c.readPower (expression [target, sign.leaf, value]) c₃ := by
  obtain ⟨_, htake⟩ := hsign.take?
  rw [readPower]
  refine hbase.bind fun _ => ?_
  simp only [htake]
  exact hexponent.bind fun _ => .ok _

/-- Without a sign in front, what is signed is a step. -/
theorem gives_readSigned (hsees : c.sees Kind.isPrefixSign = false)
    (h : Gives c.readStepped tree c₁) : Gives c.readSigned tree c₁ := by
  rw [readSigned, takeIf?_of_sees hsees]
  exact h

/-- A sign may stand in front of what is signed. -/
theorem gives_readSigned_sign (hsign : c.Takes Kind.isPrefixSign sign c₁)
    (h : Gives c₁.readSigned tree c₂) : Gives c.readSigned (expression [sign.leaf, tree]) c₂ := by
  obtain ⟨_, htake⟩ := hsign.takeIf?
  rw [readSigned, htake]
  exact h.bind fun _ => .ok _

/-- Without a sign behind it on its line, a step is a chain. -/
theorem gives_readStepped (h : Gives c.readChain tree c₁)
    (hsees : c₁.sees (fun kind => kind.isStep && !c₁.newlineBefore) = false) :
    Gives c.readStepped tree c₁ := by
  rw [readStepped]
  refine h.bind fun _ => ?_
  simp only [takeIf?_of_sees hsees]
  exact .ok _

/-- A sign behind it on its line steps a chain. -/
theorem gives_readStepped_sign (h : Gives c.readChain tree c₁)
    (hsign : c₁.Takes (fun kind => kind.isStep && !c₁.newlineBefore) sign c₂) :
    Gives c.readStepped (expression [tree, sign.leaf]) c₂ := by
  obtain ⟨_, htake⟩ := hsign.takeIf?
  rw [readStepped]
  refine h.bind fun _ => ?_
  simp only [htake]
  exact .ok _

/-! ### Chains -/

/-- A chain begins with a primary expression. -/
theorem gives_readChain (h : Gives c.readPrimary tree c₁)
    (hmore : Gives (c₁.readAccesses tree) whole c₂) : Gives c.readChain whole c₂ := by
  rw [readChain]
  exact h.bind fun _ => hmore.bind fun _ => .ok _

/-- A chain goes on with a member. -/
theorem gives_readAccesses_member (hdot : c.Takes (· == .mark .dot) sign c₁)
    (hname : Gives c₁.readMemberName tree c₂)
    (hmore : Gives (c₂.readAccesses (expression [subject, sign.leaf, tree])) whole c₃) :
    Gives (c.readAccesses subject) whole c₃ := by
  obtain ⟨_, htake⟩ := hdot.take?
  rw [readAccesses, htake]
  exact hname.bind fun _ => hmore.bind fun _ => .ok _

/-- A chain goes on with an element. -/
theorem gives_readAccesses_index (hleft : c.Takes (· == .mark .openBracket) left c₁)
    (hindex : Gives c₁.readSequence tree c₂) (hright : c₂.Takes (· == .mark .closeBracket) right c₃)
    (hmore : Gives (c₃.readAccesses (expression [subject, left.leaf, tree, right.leaf])) whole c₄) :
    Gives (c.readAccesses subject) whole c₄ := by
  obtain ⟨_, htake⟩ := hleft.take?
  have hdot := sees_kind_eq_false (.mark .dot) hleft.sees rfl
  rw [readAccesses, take?_of_sees hdot]
  simp only [htake]
  exact hindex.bind fun _ => hright.expect.bind fun _ => hmore.bind fun _ => .ok _

/-- A chain goes on with a call. -/
theorem gives_readAccesses_call (hleft : c.Takes (· == .mark .openParen) left c₁)
    (harguments : Gives (c₁.readArguments left.leaf) tree c₂)
    (hmore : Gives (c₂.readAccesses (expression [subject, tree])) whole c₃) :
    Gives (c.readAccesses subject) whole c₃ := by
  obtain ⟨_, htake⟩ := hleft.take?
  have hdot := sees_kind_eq_false (.mark .dot) hleft.sees rfl
  have hbracket := sees_kind_eq_false (.mark .openBracket) hleft.sees rfl
  rw [readAccesses, take?_of_sees hdot]
  simp only [take?_of_sees hbracket, htake]
  exact harguments.bind fun _ => hmore.bind fun _ => .ok _

/-- A chain ends where no access follows. -/
theorem gives_readAccesses (hsees : c.sees Kind.isAccess = false) :
    Gives (c.readAccesses tree) tree c := by
  rw [sees_isAccess, Bool.or_eq_false_iff, Bool.or_eq_false_iff] at hsees
  obtain ⟨⟨hdot, hbracket⟩, hparen⟩ := hsees
  rw [readAccesses, take?_of_sees hdot]
  simp only [take?_of_sees hbracket, take?_of_sees hparen]
  exact .ok _

/-- Some tokens are expressions of their own. -/
theorem gives_readPrimary_atom (htoken : c.Takes Kind.isAtom sign c₁) :
    Gives c.readPrimary (.atom sign.leaf) c₁ := by
  obtain ⟨hbelow, htake⟩ := htoken.takeIf?
  rw [readPrimary, htake]
  exact .ok hbelow

/-- A bracket begins a list. -/
theorem gives_readPrimary_array (hleft : c.Takes (· == .mark .openBracket) left c₁)
    (h : Gives c₁.readElements items c₂) (hright : c₂.Takes (· == .mark .closeBracket) right c₃) :
    Gives c.readPrimary (expression [branch .arrayLiteral
      [left.leaf, branch .elementList items c₁.start, right.leaf] c.start]) c₃ := by
  obtain ⟨_, htake⟩ := hleft.take?
  have hatom := sees_eq_false hleft.sees Kind.isAtom_of_mark
  rw [readPrimary, takeIf?_of_sees hatom]
  simp only [htake]
  exact h.bind fun _ => hright.expect.bind fun _ => .ok _

/-- A parenthesis begins a sequence. -/
theorem gives_readPrimary_parenthesized (hleft : c.Takes (· == .mark .openParen) left c₁)
    (h : Gives c₁.readSequence tree c₂) (hright : c₂.Takes (· == .mark .closeParen) right c₃) :
    Gives c.readPrimary (expression [left.leaf, tree, right.leaf]) c₃ := by
  obtain ⟨_, htake⟩ := hleft.take?
  have hatom := sees_eq_false hleft.sees Kind.isAtom_of_mark
  have hbracket := sees_kind_eq_false (.mark .openBracket) hleft.sees rfl
  rw [readPrimary, takeIf?_of_sees hatom]
  simp only [take?_of_sees hbracket, htake]
  exact h.bind fun _ => hright.expect.bind fun _ => .ok _

/-! ### Arguments and elements -/

/-- A sequence is a list of assignments. -/
theorem gives_readSequence (h : GivesList readAssignment id c items c₁) :
    Gives c.readSequence (branch .expressionSequence items c.start) c₁ := by
  obtain ⟨list, hlist, rfl⟩ := h
  rw [← readCommaList_eq] at hlist
  rw [readSequence]
  exact hlist.bind fun _ => .ok _

/-- A call may have no arguments. -/
theorem gives_readArguments_none (hright : c.Takes (· == .mark .closeParen) right c₁) :
    Gives (c.readArguments left.leaf)
      (branch .arguments [left.leaf, right.leaf] left.span.start) c₁ := by
  obtain ⟨_, htake⟩ := hright.take?
  rw [readArguments, htake]
  exact .ok _

/-- The arguments of a call are a list. -/
theorem gives_readArguments (hsees : c.sees (· == .mark .closeParen) = false)
    (h : GivesList readAssignment (wrap .argument) c items c₁)
    (hright : c₁.Takes (· == .mark .closeParen) right c₂) :
    Gives (c.readArguments left.leaf)
      (branch .arguments (left.leaf :: items ++ [right.leaf]) left.span.start) c₂ := by
  obtain ⟨list, hlist, rfl⟩ := h
  rw [← readCommaList_eq] at hlist
  rw [readArguments, take?_of_sees hsees]
  exact hlist.bind fun _ => hright.expect.bind fun _ => .ok _

/-- Elements end at a bracket. -/
theorem gives_readElements_none (hend : c.tokens = [] ∨ c.sees (· == .mark .closeBracket) = true) :
    Gives c.readElements [] c := by
  have hend : c.tokens.isEmpty || c.isAt .closeBracket := by simpa using hend
  rw [readElements, if_pos hend]
  exact .ok _

/-- A comma may stand for an element. -/
theorem gives_readElements_skipped (hcomma : c.Takes (· == .mark .comma) comma c₁)
    (h : Gives c₁.readElements items c₂) : Gives c.readElements (comma.leaf :: items) c₂ := by
  obtain ⟨_, htake⟩ := hcomma.take?
  have hbracket := sees_kind_eq_false (.mark .closeBracket) hcomma.sees rfl
  rw [readElements, if_neg (by simp [hbracket, tokens_ne_nil_of_sees hcomma.sees]), htake]
  exact h.bind fun _ => .ok _

section

variable (htokens : c.tokens ≠ []) (hbracket : c.sees (· == .mark .closeBracket) = false)
  (hnone : c.sees (· == .mark .comma) = false) (hvalue : Gives c.readAssignment value c₁)

include htokens hbracket hnone hvalue

/-- The last element needs no comma. -/
theorem gives_readElements_last (hlast : c₁.sees (· == .mark .closeBracket) = true) :
    Gives c.readElements [wrap .arrayElement value] c₁ := by
  rw [readElements, if_neg (by simp [hbracket, htokens]), take?_of_sees hnone]
  refine hvalue.bind fun _ => ?_
  simp only [isAt_eq_sees, hlast, if_true]
  exact .ok _

/-- Elements go on behind a comma. -/
theorem gives_readElements (hcomma : c₁.Takes (· == .mark .comma) comma c₂)
    (hrest : Gives c₂.readElements items c₃) :
    Gives c.readElements (wrap .arrayElement value :: comma.leaf :: items) c₃ := by
  have hmore := sees_kind_eq_false (.mark .closeBracket) hcomma.sees rfl
  rw [readElements, if_neg (by simp [hbracket, htokens]), take?_of_sees hnone]
  refine hvalue.bind fun _ => ?_
  simp only [isAt_eq_sees, hmore, Bool.false_eq_true, if_false]
  exact hcomma.expect.bind fun _ => hrest.bind fun _ => .ok _

end

/-! ### Statements -/

/-- Statements end at a brace or at the end. -/
theorem gives_readStatements_none (hend : c.sees (· == .mark .closeBrace) = true ∨ c.tokens = []) :
    Gives c.readStatements [] c := by
  have hend : c.isAt .closeBrace || c.tokens.isEmpty := by simpa using hend
  rw [readStatements, if_pos hend]
  exact .ok _

/-- Where statements do not end, one more is read. -/
theorem gives_readStatements (hbrace : c.sees (· == .mark .closeBrace) = false)
    (htokens : c.tokens ≠ []) (h : Gives c.readStatement tree c₁)
    (hrest : Gives c₁.readStatements items c₂) : Gives c.readStatements (tree :: items) c₂ := by
  rw [readStatements, if_neg (by simp [hbrace, htokens])]
  exact h.bind fun _ => hrest.bind fun _ => .ok _

/-- A semicolon ends a statement. -/
theorem gives_readStatementEnd_mark (hsemicolon : c.Takes (· == .mark .semicolon) sign c₁) :
    Gives c.readStatementEnd (wrap .eos sign.leaf) c₁ := by
  obtain ⟨_, htake⟩ := hsemicolon.take?
  rw [readStatementEnd, htake]
  exact .ok _

/-- A brace, the end or a line break ends a statement too. -/
theorem gives_readStatementEnd (hsees : c.sees (· == .mark .semicolon) = false)
    (hend : c.sees (· == .mark .closeBrace) = true ∨ c.tokens = [] ∨ c.newlineBefore = true) :
    Gives c.readStatementEnd (branch .eos [] c.previousEnd) c := by
  have hend : c.isAt .closeBrace || c.tokens.isEmpty || c.newlineBefore := by
    simpa [or_assoc] using hend
  rw [readStatementEnd, take?_of_sees hsees]
  simp only [hend, if_true]
  exact .ok _

/-- A declaration may be a name alone. -/
theorem gives_readDeclarator_bare (hname : Gives c.readAssignable tree c₁)
    (hsees : c₁.sees (· == .mark .assign) = false) :
    Gives c.readDeclarator (wrap .variableDeclaration tree) c₁ := by
  refine hname.bind fun _ => ?_
  simp only [take?_of_sees hsees]
  exact .ok _

/-- A declaration may give a value to its name. -/
theorem gives_readDeclarator (hname : Gives c.readAssignable tree c₁)
    (hsign : c₁.Takes (· == .mark .assign) sign c₂) (hvalue : Gives c₂.readAssignment value c₃) :
    Gives c.readDeclarator
      (branch .variableDeclaration [tree, sign.leaf, value] c.start) c₃ := by
  obtain ⟨_, htake⟩ := hsign.take?
  refine hname.bind fun _ => ?_
  simp only [htake]
  exact hvalue.bind fun _ => .ok _

/-- A return may give back nothing. -/
theorem gives_readReturned_none
    (hnone : c.sees (· == .mark .semicolon) = true ∨ c.sees (· == .mark .closeBrace) = true ∨
      c.tokens = [] ∨ c.newlineBefore = true) : Gives c.readReturned [] c := by
  have hnone : c.isAt .semicolon || c.isAt .closeBrace || c.tokens.isEmpty || c.newlineBefore := by
    simpa [or_assoc] using hnone
  rw [readReturned, if_pos hnone]
  exact .ok _

section

variable (hkeyword : c.Takes (· == .word .ifWord) keyword c₁)
  (hleft : c₁.Takes (· == .mark .openParen) left c₂) (hcondition : Gives c₂.readSequence tree c₃)
  (hright : c₃.Takes (· == .mark .closeParen) right c₄)
  (hconsequence : Gives c₄.readStatement value c₅)

include hkeyword hleft hcondition hright hconsequence

/-- A conditional may have one branch. -/
theorem gives_readConditional (hsees : c₅.sees (· == .word .elseWord) = false) :
    Gives c.readConditional
      (branch .ifStatement [keyword.leaf, left.leaf, tree, right.leaf, value] c.start) c₅ := by
  rw [readConditional]
  refine hkeyword.expect.bind fun _ => (gives_readCondition hleft hcondition hright).bind fun _ =>
    hconsequence.bind fun _ => ?_
  simp only [take?_of_sees hsees]
  exact .ok _

/-- An `else` adds a branch. -/
theorem gives_readConditional_else (hotherwise : c₅.Takes (· == .word .elseWord) sign c₆)
    (halternative : Gives c₆.readStatement target c₇) :
    Gives c.readConditional (branch .ifStatement
      [keyword.leaf, left.leaf, tree, right.leaf, value, sign.leaf, target] c.start) c₇ := by
  obtain ⟨_, htake⟩ := hotherwise.take?
  rw [readConditional]
  refine hkeyword.expect.bind fun _ => (gives_readCondition hleft hcondition hright).bind fun _ =>
    hconsequence.bind fun _ => ?_
  simp only [htake]
  exact halternative.bind fun _ => .ok _

end

end

/-! ## Phrases are given -/

/-- What is given of an item goes into a list of items, each item as it is or wrapped. -/
theorem Given.oneItem {c c₁ : Cursor} {tree : Tree} (h : Given .done item c [tree] c₁)
    (hlast : c₁.sees (· == .mark .comma) = false) :
    Given .done (.list item) c [tree] c₁ := by
  cases item with
  | expression strength =>
    cases strength with
    | assignment => exact givesList_one h hlast
    | _ => trivial
  | argument =>
    obtain ⟨value, hvalue, heq⟩ := h
    cases heq
    exact givesList_one hvalue hlast
  | declarator | parameter => exact givesList_one h hlast
  | _ => trivial

/-- A list that is read goes on behind a comma. -/
theorem Given.moreItems {c c₁ c₂ c₃ : Cursor} {comma : Token} {tree : Tree}
    (h : Given .done item c [tree] c₁) (hcomma : c₁.Takes (· == .mark .comma) comma c₂)
    (hrest : Given .done (.list item) c₂ rest c₃) :
    Given .done (.list item) c (tree :: comma.leaf :: rest) c₃ := by
  cases item with
  | expression strength =>
    cases strength with
    | assignment => exact givesList_more h hcomma hrest
    | _ => trivial
  | argument =>
    obtain ⟨value, hvalue, heq⟩ := h
    cases heq
    exact givesList_more hvalue hcomma hrest
  | declarator | parameter => exact givesList_more h hcomma hrest
  | _ => trivial

/-- A list without separators that is read may be empty. -/
theorem Given.none {c : Cursor} (hend : c.sees (· == .mark .closeBrace) = true ∨ c.tokens = []) :
    Given .done (.many item) c [] c := by
  cases item with
  | statement => exact gives_readStatements_none hend
  | sourceElement => exact ⟨[], gives_readStatements_none hend, rfl⟩
  | _ => trivial

/-- A list without separators that is read may go on. -/
theorem Given.more {c c₁ c₂ : Cursor} {tree : Tree}
    (hbrace : c.sees (· == .mark .closeBrace) = false) (htokens : c.tokens ≠ [])
    (h : Given .done item c [tree] c₁) (hrest : Given .done (.many item) c₁ rest c₂) :
    Given .done (.many item) c (tree :: rest) c₂ := by
  cases item with
  | statement => exact gives_readStatements hbrace htokens h hrest
  | sourceElement =>
    obtain ⟨statement, hstatement, heq⟩ := h
    obtain ⟨statements, hstatements, rfl⟩ := hrest
    cases heq
    exact ⟨_, gives_readStatements hbrace htokens hstatement hstatements, rfl⟩
  | _ => trivial

/-- Whatever a derivation reads for a phrase, the reader of the phrase gives. -/
theorem Reads.given {progress : Progress} {phrase : Phrase} {c c₁ : Cursor}
    (h : Reads progress phrase c trees c₁) : Given progress phrase c trees c₁ := by
  induction h with
  | oneItem _ hlast ih => exact Given.oneItem ih hlast
  | moreItems _ hcomma _ ih ihrest => exact Given.moreItems ih hcomma ihrest
  | none hend => exact Given.none hend
  | more hbrace htokens _ _ ih ihrest => exact Given.more hbrace htokens ih ihrest
  -- Names
  | identifier hname => exact hname.expect.bind fun _ => .ok _
  | memberName hname =>
    obtain ⟨hbelow, htake⟩ := hname.take?
    change Gives (readMemberName _) _ _
    rw [readMemberName_eq, htake]
    exact .ok hbelow
  | memberWord hword => exact gives_readMemberName_word hword
  | assignable _ ih => exact Gives.bind ih fun _ => .ok _
  -- Expressions. Of one that is only begun, the readers of what may follow are still to be given.
  | noAssignment _ hsees ih => exact gives_readAssignment ih hsees
  | assignment _ hsign _ ihtarget ihvalue =>
    exact gives_readAssignment_sign ihtarget hsign ihvalue
  | operand _ ih =>
    intro whole c₂ hmore
    exact gives_readBinary (Given.operand ih) hmore
  | binary _ hsign _ ihleft ihright =>
    intro whole c₄ hmore
    exact ihleft _ _ (gives_readOperations_sign hsign (Given.operand ihright) hmore)
  | operations _ hsees ih => exact ih _ _ (gives_readOperations hsees)
  | noPower _ hsees ih => exact gives_readPower ih hsees
  | power _ hsign _ ihbase ihexponent => exact gives_readPower_sign ihbase hsign ihexponent
  | unsigned hsees _ ih => exact gives_readSigned hsees ih
  | signed hsign _ ih => exact gives_readSigned_sign hsign ih
  | noStep _ hsees ih => exact gives_readStepped ih hsees
  | stepped _ hsign ih => exact gives_readStepped_sign ih hsign
  | subject _ ih =>
    intro whole c₂ hmore
    exact gives_readChain ih hmore
  | member _ hdot _ ihsubject ihname =>
    intro whole c₄ hmore
    exact ihsubject _ _ (gives_readAccesses_member hdot ihname hmore)
  | index _ hleft _ hright ihsubject ihindex =>
    intro whole c₅ hmore
    exact ihsubject _ _ (gives_readAccesses_index hleft ihindex hright hmore)
  | call _ _ ihsubject iharguments =>
    intro whole c₃ hmore
    obtain ⟨left, c', hleft, harguments⟩ := iharguments
    exact ihsubject _ _ (gives_readAccesses_call hleft harguments hmore)
  | accesses _ hsees ih => exact ih _ _ (gives_readAccesses hsees)
  | atom htoken => exact gives_readPrimary_atom htoken
  | array hleft _ hright ih => exact gives_readPrimary_array hleft ih hright
  | parenthesized hleft _ hright ih => exact gives_readPrimary_parenthesized hleft ih hright
  -- Parts of expressions
  | sequence _ ih => exact gives_readSequence ih
  | argument _ ih => exact ⟨_, ih, rfl⟩
  | noArguments hleft hright => exact ⟨_, _, hleft, gives_readArguments_none hright⟩
  | arguments hleft hsees _ hright ih => exact ⟨_, _, hleft, gives_readArguments hsees ih hright⟩
  | noElements hend => exact gives_readElements_none hend
  | skippedElement hcomma _ ih => exact gives_readElements_skipped hcomma ih
  | lastElement htokens hbracket hcomma _ hlast ih =>
    exact gives_readElements_last htokens hbracket hcomma ih hlast
  | element htokens hbracket hnone _ hcomma _ ihvalue ihrest =>
    exact gives_readElements htokens hbracket hnone ihvalue hcomma ihrest
  -- Statements
  | endMark hsemicolon => exact gives_readStatementEnd_mark hsemicolon
  | noEndMark hsees hend => exact gives_readStatementEnd hsees hend
  | bareDeclarator _ hsees ih => exact gives_readDeclarator_bare ih hsees
  | declarator _ hsign _ ihname ihvalue => exact gives_readDeclarator ihname hsign ihvalue
  | variableStatement hmodifier _ _ ihdeclarators ihending =>
    obtain ⟨_, htake⟩ := hmodifier.takeIf?
    obtain ⟨list, hlist, rfl⟩ := ihdeclarators
    change Gives (readVariableStatement _) _ _
    rw [readVariableStatement, htake]
    exact hlist.bind fun _ => Gives.bind ihending fun _ => .ok _
  | emptyStatement hsemicolon => exact hsemicolon.expect.bind fun _ => .ok _
  | expressionStatement _ _ ihsequence ihending =>
    exact Gives.bind ihsequence fun _ => Gives.bind ihending fun _ => .ok _
  | noValue hnone => exact gives_readReturned_none hnone
  | value hsemicolon hbrace htokens hnewline _ ih =>
    change Gives (readReturned _) _ _
    rw [readReturned, if_neg (by simp [hsemicolon, hbrace, htokens, hnewline])]
    exact Gives.bind ih fun _ => .ok _
  | returnStatement hkeyword _ _ ihvalue ihending =>
    exact hkeyword.expect.bind fun _ => Gives.bind ihvalue fun _ =>
      Gives.bind ihending fun _ => .ok _
  | parameter _ ih => exact Gives.bind ih fun _ => .ok _
  | parameterList _ ih =>
    obtain ⟨list, hlist, rfl⟩ := ih
    exact ⟨list, hlist, rfl⟩
  | noParameters hnone =>
    change Gives (readParameters _) _ _
    rw [readParameters, if_pos (by simp [hnone])]
    exact .ok _
  | parameters hsome _ ih =>
    obtain ⟨list, hlist, heq⟩ := ih
    cases heq
    change Gives (readParameters _) _ _
    rw [readParameters, if_neg (by simp [hsome])]
    exact hlist.bind fun _ => .ok _
  | function hkeyword _ hleft _ hright hopening _ hclosing ihname ihparameters ihelements =>
    change Gives (readFunction _) _ _
    rw [readFunction]
    exact hkeyword.expect.bind fun _ => Gives.bind ihname fun _ => hleft.expect.bind fun _ =>
      Gives.bind ihparameters fun _ => hright.expect.bind fun _ => hopening.expect.bind fun _ =>
      Gives.bind ihelements fun _ => hclosing.expect.bind fun _ => .ok _
  | block hopening _ hclosing ih =>
    change Gives (readBlock _) _ _
    rw [readBlock]
    exact hopening.expect.bind fun _ => Gives.bind ih fun _ => hclosing.expect.bind fun _ => .ok _
  | ifThen hkeyword hleft _ hright _ hsees ihcondition ihconsequence =>
    exact gives_readConditional hkeyword hleft ihcondition hright ihconsequence hsees
  | ifThenElse hkeyword hleft _ hright _ hotherwise _ ihcondition ihconsequence ihalternative =>
    exact gives_readConditional_else hkeyword hleft ihcondition hright ihconsequence hotherwise
      ihalternative
  | loop hkeyword hleft _ hright _ ihcondition ihbody =>
    change Gives (readLoop _) _ _
    rw [readLoop]
    exact hkeyword.expect.bind fun _ => (gives_readCondition hleft ihcondition hright).bind fun _ =>
      Gives.bind ihbody fun _ => .ok _
  | @statement c _ _ _ ih =>
    have hform := Given.form ih (Phrase.ofFirst_mem c.kind?)
    change Gives (readStatement _) _ _
    rw [readStatement_eq]
    exact Gives.bind hform fun _ => .ok _
  | sourceElement _ ih => exact ⟨_, ih, rfl⟩
  | sourceElements _ ih =>
    obtain ⟨statements, hstatements, rfl⟩ := ih
    change Gives (readSourceElements _) _ _
    rw [readSourceElements]
    exact hstatements.bind fun _ => .ok _
  | program _ hend ih =>
    change Gives (readProgram _) _ _
    refine Gives.bind ih fun _ => ?_
    simp only [hend, List.isEmpty_nil, if_true]
    exact .ok _

/-- A source text has a tree exactly when a program is read from its beginning. -/
theorem Tree.parse_eq_ok_iff {source : String} {tree : Tree} :
    Tree.parse source = .ok tree ↔ ∃ c, Reads .done .program (.ofSource source) [tree] c := by
  unfold Tree.parse
  constructor
  · intro h
    cases hread : (ofSource source).readProgram with
    | ok reading =>
      rw [hread] at h
      cases h
      exact ⟨reading.next, reads_of_readProgram hread⟩
    | error refusal =>
      rw [hread] at h
      cases h
  · rintro ⟨c, hreads⟩
    obtain ⟨_, hread⟩ : Gives (ofSource source).readProgram tree c := hreads.given
    rw [hread]

end TreeScript
