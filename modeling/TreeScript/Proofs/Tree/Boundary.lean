import TreeScript.Proofs.Tree.Derivation

/-!
# Where phrases begin and end

A reader looks one token ahead. For an expression, `StopsAt` says that the token ahead goes on
with no operation that binds strongly enough to take it in: every operator and every access has
one strength, which `Kind.strength?` lists. For the other phrases, `MayEnd` says before which
tokens they end. `Begins` says with which tokens a phrase begins, and everything that is read
begins with one of them.
-/

namespace TreeScript

variable {kind : Kind} {trees : List Tree}

/-! ## Where expressions end -/

/-- How many strengths are stronger. -/
def Strength.looseness : Strength → Nat
  | assignment => 15
  | level l => l.looseness + 5
  | power => 4
  | signed => 3
  | stepped => 2
  | chain => 1
  | primary => 0

/-- The tokens that an operation of a strength has behind its first operand. -/
def Strength.accepts : Strength → Kind → Bool
  | assignment => Kind.isAssignment
  | level l => l.accepts
  | power => (· == .mark .power)
  | stepped => Kind.isStep
  | chain => Kind.isAccess
  | signed | primary => fun _ => false

/-- The strength of the operation that a token goes on with behind an operand. -/
def Kind.strength? : Kind → Option Strength
  | mark .eitherOr => some (.level .disjunction)
  | mark .bothAnd => some (.level .conjunction)
  | mark .bitOr => some (.level .bitOr)
  | mark .bitXor => some (.level .bitXor)
  | mark .bitAnd => some (.level .bitAnd)
  | mark .equal | mark .notEqual | mark .identical | mark .notIdentical => some (.level .equality)
  | mark .less | mark .greater | mark .lessEqual | mark .greaterEqual => some (.level .comparison)
  | mark .shiftLeft | mark .shiftRight | mark .shiftRightZero => some (.level .shift)
  | mark .plus | mark .minus => some (.level .additive)
  | mark .star | mark .slash | mark .percent => some (.level .multiplicative)
  | mark .power => some .power
  | mark .increment | mark .decrement => some .stepped
  | mark .dot | mark .openBracket | mark .openParen => some .chain
  | mark m => if m.isAssignment then some .assignment else none
  | _ => none

/-- The marks of a level have its strength. -/
theorem Level.strength?_of_mem_marks (level : Level) :
    ∀ m ∈ level.marks, (Kind.mark m).strength? = some (.level level) := by
  cases level <;> decide

/-- No token goes on with operations of two strengths. -/
theorem Strength.strength?_of_accepts {strength : Strength} (h : strength.accepts kind = true) :
    kind.strength? = some strength := by
  cases kind with
  | mark m =>
    cases strength with
    | level l => exact l.strength?_of_mem_marks m (List.contains_iff_mem.mp h)
    | assignment | power | stepped | chain => cases m <;> cases h <;> rfl
    | signed | primary => cases h
  | _ => cases strength <;> cases h

namespace Strength

/-- The cursor is at no token that goes on with an expression of a strength. -/
def StopsAt (strength : Strength) (c : Cursor) : Prop :=
  ∀ other ∈ c.kind?.bind Kind.strength?, strength.looseness < other.looseness

variable {strength other : Strength} {c : Cursor}

/-- Where a strength stops, no operator of it is seen. -/
theorem StopsAt.sees (h : strength.StopsAt c) : c.sees strength.accepts = false := by
  rw [Bool.eq_false_iff]
  intro haccepts
  obtain ⟨kind, hkind, haccepts⟩ := Cursor.sees_iff.mp haccepts
  have hlt := h strength (by rw [hkind]; exact strength?_of_accepts haccepts)
  exact Nat.lt_irrefl _ hlt

/-- A tighter strength stops there, too. -/
theorem StopsAt.mono (h : strength.StopsAt c) (hle : other.looseness ≤ strength.looseness) :
    other.StopsAt c :=
  fun third hthird => Nat.lt_of_le_of_lt hle (h third hthird)

/-- A strength stops at looser tokens. -/
theorem stopsAt_of_sees (h : c.sees (· == kind) = true)
    (hkind : ∀ other ∈ kind.strength?, strength.looseness < other.looseness) :
    strength.StopsAt c := by
  unfold StopsAt
  rw [Cursor.kind?_of_sees h]
  exact hkind

/-- A token of a looser operation goes on with no tighter expression. -/
theorem stopsAt_of_accepts (looser : Strength) (h : c.sees looser.accepts = true)
    (hlt : strength.looseness < looser.looseness) : strength.StopsAt c := by
  obtain ⟨kind, hkind, haccepts⟩ := Cursor.sees_iff.mp h
  intro other hother
  rw [hkind, Option.bind_some, strength?_of_accepts haccepts] at hother
  cases hother
  exact hlt

/-- A tighter strength is less loose. -/
theorem looseness_of_tighter? (h : strength.tighter? = some other) :
    other.looseness < strength.looseness := by
  cases strength with
  | level l => cases l <;> cases h <;> decide
  | _ => cases h <;> decide

end Strength

/-- An operand by itself stands for expressions of every strength. -/
theorem Produces.of_primary {omits : Bool} {tree : Tree}
    (h : Produces omits (.expression .primary) [tree]) (strength : Strength) :
    Produces omits (.expression strength) [tree] := by
  cases hnext : strength.tighter? with
  | none =>
    cases strength with
    | primary => exact h
    | _ => cases hnext
  | some next => exact .tighter hnext (of_primary h next)
termination_by strength.looseness
decreasing_by exact Strength.looseness_of_tighter? hnext

/-! ## Where phrases begin -/

namespace Kind

/-- The tokens that an operand without a sign begins with. -/
def startsOperand (kind : Kind) : Bool :=
  kind.isAtom || kind == .mark .openBracket || kind == .mark .openParen

/-- The tokens that an expression begins with. -/
def startsExpression (kind : Kind) : Bool := kind.startsOperand || kind.isPrefixSign

/-- The tokens that a statement begins with. -/
def startsStatement (kind : Kind) : Bool :=
  kind.startsExpression || Phrase.ofFirst (some kind) != .expressionStatement

end Kind

/-- The cursor is at a token that the phrase can begin with. -/
def Phrase.Begins : Phrase → Cursor → Prop
  | .list item, c => item.Begins c
  | .identifier, c | .assignable, c | .declarator, c | .parameter, c | .parameterList, c =>
    c.sees (· == .name) = true
  | .expression .stepped, c | .expression .chain, c | .expression .primary, c =>
    c.sees Kind.startsOperand = true
  | .expression _, c | .sequence, c | .argument, c | .expressionStatement, c =>
    c.sees Kind.startsExpression = true
  | .arguments, c => c.sees (· == .mark .openParen) = true
  | .block, c => .ofFirst c.kind? = Phrase.block
  | .variableStatement, c => .ofFirst c.kind? = Phrase.variableStatement
  | .emptyStatement, c => .ofFirst c.kind? = Phrase.emptyStatement
  | .conditional, c => .ofFirst c.kind? = Phrase.conditional
  | .loop, c => .ofFirst c.kind? = Phrase.loop
  | .returnStatement, c => .ofFirst c.kind? = Phrase.returnStatement
  | .function, c => .ofFirst c.kind? = Phrase.function
  | .statement, c | .sourceElement, c => c.sees Kind.startsStatement = true
  | _, _ => True

/-- No operand begins with a sign. -/
theorem Kind.isPrefixSign_of_startsOperand (kind : Kind) (h : kind.startsOperand = true) :
    kind.isPrefixSign = false := by
  cases kind with
  | mark m => cases m <;> cases h <;> rfl
  | _ => rfl

/-- `=` is an assignment. -/
theorem Kind.isAssignment_of_assign (kind : Kind) (h : (kind == .mark .assign) = true) :
    kind.isAssignment = true := by
  rw [beq_iff_eq.mp h]
  rfl

/-- An operand begins an operation. -/
theorem Phrase.begins_operand {level : Level} {c : Cursor}
    (h : (Phrase.expression level.operand).Begins c) :
    (Phrase.expression (.level level)).Begins c := by
  cases level <;> exact h

/-- Declarations begin with their word. -/
theorem Kind.ofFirst_of_isDeclarer (h : kind.isDeclarer = true) :
    Phrase.ofFirst (some kind) = .variableStatement := by
  cases kind with
  | word w => cases w <;> cases h <;> rfl
  | _ => cases h

/-- An expression begins an expression statement. -/
theorem Kind.ofFirst_of_startsExpression (h : kind.startsExpression = true) :
    Phrase.ofFirst (some kind) = .expressionStatement := by
  cases kind with
  | word w => cases w <;> cases h <;> rfl
  | mark m => cases m <;> cases h <;> rfl
  | _ => rfl

/-- A form that begins a statement lets the reader choose it. -/
theorem Phrase.Begins.ofFirst {form : Phrase} {c : Cursor} (h : form.Begins c)
    (hform : form ∈ Phrase.statementForms) : Phrase.ofFirst c.kind? = form := by
  simp only [statementForms, List.mem_cons, List.not_mem_nil, or_false] at hform
  rcases hform with rfl | rfl | rfl | rfl | rfl | rfl | rfl | rfl
  · exact h
  · exact h
  · exact h
  · obtain ⟨kind, hkind, hstarts⟩ := Cursor.sees_iff.mp h
    rw [hkind, Kind.ofFirst_of_startsExpression hstarts]
  · exact h
  · exact h
  · exact h
  · exact h

/-- The form that the reader chooses begins a statement. -/
theorem Phrase.Begins.statement {c : Cursor} (h : (Phrase.ofFirst c.kind?).Begins c) :
    Phrase.statement.Begins c := by
  by_cases hform : Phrase.ofFirst c.kind? = .expressionStatement
  · rw [hform] at h
    exact Cursor.sees_mono h fun kind hkind => by simp [Kind.startsStatement, hkind]
  · cases hkind : c.kind? with
    | none =>
      rw [hkind] at hform
      exact absurd rfl hform
    | some kind =>
      rw [hkind] at hform
      exact Cursor.sees_iff.mpr ⟨kind, hkind, by simp [Kind.startsStatement, hform]⟩

/-- What is read begins with a token that it can begin with. -/
theorem Reads.begins {progress : Progress} {phrase : Phrase} {c c₁ : Cursor}
    (h : Reads progress phrase c trees c₁) : phrase.Begins c := by
  have hoperand (kind : Kind) (h : kind.startsOperand = true) : kind.startsExpression = true := by
    simp [Kind.startsExpression, h]
  induction h with
  | oneItem _ _ ih | moreItems _ _ _ ih _ => exact ih
  | identifier hname => exact hname.sees
  | assignable _ ih => exact ih
  | noAssignment _ _ ih => exact ih
  | assignment _ _ _ ih _ => exact ih
  | operand _ ih => exact Phrase.begins_operand ih
  | binary _ _ _ ih _ => exact ih
  | operations _ _ ih => exact ih
  | noPower _ _ ih => exact ih
  | power _ _ _ ih _ => exact ih
  | unsigned _ _ ih => exact Cursor.sees_mono ih hoperand
  | signed hsign =>
    exact Cursor.sees_mono hsign.sees fun kind h => by simp [Kind.startsExpression, h]
  | noStep _ _ ih => exact ih
  | stepped _ _ ih => exact ih
  | subject _ ih => exact ih
  | member _ _ _ ih _ => exact ih
  | index _ _ _ _ ih _ => exact ih
  | call _ _ ih _ => exact ih
  | accesses _ _ ih => exact ih
  | atom htoken => exact Cursor.sees_mono htoken.sees fun kind h => by simp [Kind.startsOperand, h]
  | array hleft | parenthesized hleft =>
    exact Cursor.sees_mono hleft.sees fun kind h => by simp_all [Kind.startsOperand]
  | sequence _ ih => exact ih
  | argument _ ih => exact ih
  | noArguments hleft | arguments hleft => exact hleft.sees
  | bareDeclarator _ _ ih => exact ih
  | declarator _ _ _ ih _ => exact ih
  | parameter _ ih => exact ih
  | parameterList _ ih => exact ih
  | variableStatement hmodifier =>
    obtain ⟨kind, hkind, hdeclarer⟩ := Cursor.sees_iff.mp hmodifier.sees
    unfold Phrase.Begins
    rw [hkind, Kind.ofFirst_of_isDeclarer hdeclarer]
  | emptyStatement hfirst | returnStatement hfirst | function hfirst | block hfirst
  | ifThen hfirst | ifThenElse hfirst | loop hfirst =>
    unfold Phrase.Begins
    rw [Cursor.kind?_of_sees hfirst.sees]
    rfl
  | expressionStatement _ _ ih _ => exact ih
  | statement _ ih => exact Phrase.Begins.statement ih
  | sourceElement _ ih => exact ih
  | _ => trivial

/-! ## Where phrases end -/

/-- The strength that the parts of a loop have; other expressions have no loop. -/
def Strength.inner : Strength → Strength
  | level l => l.operand
  | chain => primary
  | strength => strength

/-- Whether an expression is read in a loop, which leaves it begun until the loop has ended. -/
def Phrase.progress : Phrase → Progress
  | .expression (.level _) | .expression .chain => .begun
  | _ => .done

/-- The phrases that are listed with commas between them. -/
def Phrase.listItems : List Phrase := [.expression .assignment, .argument, .declarator, .parameter]

/-- The cursor is at a token that no list of expressions goes on with. -/
def Cursor.EndsList (c : Cursor) : Prop :=
  Strength.assignment.StopsAt c ∧ c.sees (· == .mark .comma) = false

/-- The trees of a phrase may end before the cursor. -/
def Phrase.MayEnd : Phrase → List Tree → Cursor → Prop
  | .list item, _, c => item ∈ listItems ∧ c.EndsList
  | .many item, _, c =>
    item ∈ [Phrase.statement, .sourceElement] ∧
      (c.sees (· == .mark .closeBrace) = true ∨ c.tokens = [])
  | .optional .sequence, _, c => c.sees (· == .mark .semicolon) = true
  | .optional .parameterList, _, c | .parameterList, _, c => c.sees (· == .mark .closeParen) = true
  | .optional _, _, _ => False
  | .expression strength, _, c => strength.inner.StopsAt c
  | .sequence, _, c => c.EndsList
  | .argument, _, c | .declarator, _, c => Strength.assignment.StopsAt c
  | .elements, _, c => c.sees (· == .mark .closeBracket) = true
  | .conditional, trees, c | .loop, trees, c | .statement, trees, c =>
    ∀ tree ∈ trees, tree.endsOpen = true → c.sees (· == .word .elseWord) = false
  | .sourceElement, _, c => c.sees (· == .word .elseWord) = false
  | .sourceElements, _, c => c.sees (· == .mark .closeBrace) = true ∨ c.tokens = []
  | .program, _, c => c.tokens = []
  | _, _, _ => True

/-- Most marks end a list. -/
theorem Cursor.endsList_of_sees {c : Cursor} {mark : Mark} (h : c.sees (· == .mark mark) = true)
    (hmark : (Kind.mark mark).strength? = none) (hcomma : mark ≠ .comma) : c.EndsList := by
  refine ⟨Strength.stopsAt_of_sees h (by simp [hmark]), sees_kind_eq_false _ h ?_⟩
  exact beq_eq_false_iff_ne.mpr fun heq => hcomma (Kind.mark.inj heq).symm

/-- Items are read to their end. -/
theorem Phrase.progress_of_mem_listItems : ∀ item ∈ listItems, item.progress = .done := by
  simp [listItems, progress]

/-- Items end where assignments do. -/
theorem Phrase.mayEnd_of_mem_listItems {item : Phrase} (h : item ∈ listItems) {c : Cursor}
    (hc : Strength.assignment.StopsAt c) (trees : List Tree) : item.MayEnd trees c := by
  simp only [listItems, List.mem_cons, List.not_mem_nil, or_false] at h
  rcases h with rfl | rfl | rfl | rfl
  · exact hc
  · exact hc
  · exact hc
  · trivial

/-- Forms are read to their end. -/
theorem Phrase.progress_of_mem_statementForms : ∀ form ∈ statementForms, form.progress = .done := by
  simp [statementForms, progress]

/-- A form may end where a statement may. -/
theorem Phrase.mayEnd_of_mem_statementForms {form : Phrase} (h : form ∈ statementForms) {c : Cursor}
    (hend : Phrase.statement.MayEnd trees c) :
    form.MayEnd trees c := by
  simp only [statementForms, List.mem_cons, List.not_mem_nil, or_false] at h
  rcases h with rfl | rfl | rfl | rfl | rfl | rfl | rfl | rfl
  · trivial
  · trivial
  · trivial
  · trivial
  · exact hend
  · exact hend
  · trivial
  · trivial

/-- No `else` follows where statements begin or where they are over. -/
theorem Reads.sees_else_of_many {item : Phrase} {c c₁ : Cursor}
    (h : Reads .done (.many item) c trees c₁) (hitem : item ∈ [Phrase.statement, .sourceElement]) :
    c.sees (· == .word .elseWord) = false := by
  cases h with
  | none hend =>
    rcases hend with hbrace | htokens
    · exact Cursor.sees_kind_eq_false _ hbrace rfl
    · simp [Cursor.sees, Cursor.kind?, htokens]
  | more _ _ hfirst _ =>
    have hbegins := hfirst.begins
    simp only [List.mem_cons, List.not_mem_nil, or_false] at hitem
    rcases hitem with rfl | rfl <;> exact Cursor.sees_kind_eq_false _ hbegins rfl

end TreeScript
