import TreeScript.Proofs.Outcome
import TreeScript.Proofs.Tree.Grammar

/-!
# Readings as derivations

`Reads` tells how a phrase is read from one cursor to another: which tokens are taken, what is
read in between, which token is looked at before a reading ends, and which trees come out. It has
one rule for each way that a reader can succeed. `Cursor.readProgram` and the readers below it
succeed exactly where there is such a derivation, so a fact about everything that is read is shown
by induction on derivations, one rule at a time, and a reading is shown to succeed by giving its
derivation.

Operators on one level and the accesses of a chain are read in a loop that nests to the left. Such
an expression is `begun` while another operator or access may follow, and `done` when none does.
-/

namespace TreeScript

/-! ## Taking tokens -/

/-- The leaf that a token becomes. -/
def Token.leaf (token : Token) : Tree := .leaf (.ofKind token.kind) token.text token.span

namespace Cursor

/-- Whether there is a next token whose kind passes a test. -/
def sees (cursor : Cursor) (test : Kind → Bool) : Bool := cursor.kind?.any test

/-- Taking the next token, whose kind passes a test. -/
inductive Takes (test : Kind → Bool) : Cursor → Token → Cursor → Prop
  | intro {token : Token} {rest : List Token} {endOffset previousEnd : Nat}
      {newlineBeforeEnd : Bool} (h : test token.kind = true) :
      Takes test ⟨token :: rest, endOffset, newlineBeforeEnd, previousEnd⟩ token
        ⟨rest, endOffset, newlineBeforeEnd, token.span.stop⟩

end Cursor

/-! ## Derivations -/

/-- The form of a statement that begins with a token of the given kind. -/
def Phrase.ofFirst : Option Kind → Phrase
  | some (.word .varWord) | some (.word .letWord) | some (.word .constWord) => .variableStatement
  | some (.word .functionWord) => .function
  | some (.word .ifWord) => .conditional
  | some (.word .whileWord) => .loop
  | some (.word .returnWord) => .returnStatement
  | some (.mark .openBrace) => .block
  | some (.mark .semicolon) => .emptyStatement
  | _ => .expressionStatement

/-- The tokens that go on with a chain. -/
def Kind.isAccess : Kind → Bool
  | mark .dot | mark .openBracket | mark .openParen => true
  | _ => false

/-- The operator of an assignment, in its place between the operands. -/
def Token.assignmentOperator (token : Token) : Tree :=
  if token.kind = .mark .assign then token.leaf else .wrap .assignmentOperator token.leaf

/-- Whether the reading of an expression has come to its end. -/
inductive Progress where
  | begun
  | done

open TreeScript.Tree (expression wrap branch)

/-- The trees that are read for a phrase from one cursor to another. -/
inductive Reads : Progress → Phrase → Cursor → List Tree → Cursor → Prop
  | oneItem {item : Phrase} {c c₁ : Cursor} {tree : Tree} :
      Reads .done item c [tree] c₁ → c₁.sees (· == .mark .comma) = false →
      Reads .done (.list item) c [tree] c₁
  | moreItems {item : Phrase} {c c₁ c₂ c₃ : Cursor} {comma : Token} {tree : Tree}
      {rest : List Tree} :
      Reads .done item c [tree] c₁ → c₁.Takes (· == .mark .comma) comma c₂ →
      Reads .done (.list item) c₂ rest c₃ →
      Reads .done (.list item) c (tree :: comma.leaf :: rest) c₃
  | none {item : Phrase} {c : Cursor} :
      c.sees (· == .mark .closeBrace) = true ∨ c.tokens = [] → Reads .done (.many item) c [] c
  | more {item : Phrase} {c c₁ c₂ : Cursor} {tree : Tree} {rest : List Tree} :
      c.sees (· == .mark .closeBrace) = false → c.tokens ≠ [] → Reads .done item c [tree] c₁ →
      Reads .done (.many item) c₁ rest c₂ → Reads .done (.many item) c (tree :: rest) c₂
  -- Names
  | identifier {c c₁ : Cursor} {name : Token} :
      c.Takes (· == .name) name c₁ → Reads .done .identifier c [wrap .identifier name.leaf] c₁
  | memberName {c c₁ : Cursor} {name : Token} :
      c.Takes (· == .name) name c₁ →
      Reads .done .memberName c [wrap .identifierName (wrap .identifier name.leaf)] c₁
  | memberWord {c c₁ : Cursor} {word : Token} :
      c.Takes Kind.isWord word c₁ → Reads .done .memberName c [wrap .identifierName word.leaf] c₁
  | assignable {c c₁ : Cursor} {name : Tree} :
      Reads .done .identifier c [name] c₁ → Reads .done .assignable c [wrap .assignable name] c₁
  -- Expressions
  | noAssignment {c c₁ : Cursor} {tree : Tree} :
      Reads .done (.expression (.level .disjunction)) c [tree] c₁ →
      c₁.sees Kind.isAssignment = false → Reads .done (.expression .assignment) c [tree] c₁
  | assignment {c c₁ c₂ c₃ : Cursor} {sign : Token} {target value : Tree} :
      Reads .done (.expression (.level .disjunction)) c [target] c₁ →
      c₁.Takes Kind.isAssignment sign c₂ → Reads .done (.expression .assignment) c₂ [value] c₃ →
      Reads .done (.expression .assignment) c
        [expression [target, sign.assignmentOperator, value]] c₃
  | operand {level : Level} {c c₁ : Cursor} {tree : Tree} :
      Reads .done (.expression (Level.operand level)) c [tree] c₁ →
      Reads .begun (.expression (.level level)) c [tree] c₁
  | binary {level : Level} {c c₁ c₂ c₃ : Cursor} {sign : Token} {left right : Tree} :
      Reads .begun (.expression (.level level)) c [left] c₁ → c₁.Takes level.accepts sign c₂ →
      Reads .done (.expression level.operand) c₂ [right] c₃ →
      Reads .begun (.expression (.level level)) c [expression [left, sign.leaf, right]] c₃
  | operations {level : Level} {c c₁ : Cursor} {tree : Tree} :
      Reads .begun (.expression (.level level)) c [tree] c₁ → c₁.sees level.accepts = false →
      Reads .done (.expression (.level level)) c [tree] c₁
  | noPower {c c₁ : Cursor} {tree : Tree} :
      Reads .done (.expression .signed) c [tree] c₁ → c₁.sees (· == .mark .power) = false →
      Reads .done (.expression .power) c [tree] c₁
  | power {c c₁ c₂ c₃ : Cursor} {sign : Token} {base exponent : Tree} :
      Reads .done (.expression .signed) c [base] c₁ → c₁.Takes (· == .mark .power) sign c₂ →
      Reads .done (.expression .power) c₂ [exponent] c₃ →
      Reads .done (.expression .power) c [expression [base, sign.leaf, exponent]] c₃
  | unsigned {c c₁ : Cursor} {tree : Tree} :
      c.sees Kind.isPrefixSign = false → Reads .done (.expression .stepped) c [tree] c₁ →
      Reads .done (.expression .signed) c [tree] c₁
  | signed {c c₁ c₂ : Cursor} {sign : Token} {operand : Tree} :
      c.Takes Kind.isPrefixSign sign c₁ → Reads .done (.expression .signed) c₁ [operand] c₂ →
      Reads .done (.expression .signed) c [expression [sign.leaf, operand]] c₂
  | noStep {c c₁ : Cursor} {tree : Tree} :
      Reads .done (.expression .chain) c [tree] c₁ →
      c₁.sees (fun kind => kind.isStep && !c₁.newlineBefore) = false →
      Reads .done (.expression .stepped) c [tree] c₁
  | stepped {c c₁ c₂ : Cursor} {sign : Token} {operand : Tree} :
      Reads .done (.expression .chain) c [operand] c₁ →
      c₁.Takes (fun kind => kind.isStep && !c₁.newlineBefore) sign c₂ →
      Reads .done (.expression .stepped) c [expression [operand, sign.leaf]] c₂
  | subject {c c₁ : Cursor} {tree : Tree} :
      Reads .done (.expression .primary) c [tree] c₁ → Reads .begun (.expression .chain) c [tree] c₁
  | member {c c₁ c₂ c₃ : Cursor} {dot : Token} {subject name : Tree} :
      Reads .begun (.expression .chain) c [subject] c₁ → c₁.Takes (· == .mark .dot) dot c₂ →
      Reads .done .memberName c₂ [name] c₃ →
      Reads .begun (.expression .chain) c [expression [subject, dot.leaf, name]] c₃
  | index {c c₁ c₂ c₃ c₄ : Cursor} {left right : Token} {subject index : Tree} :
      Reads .begun (.expression .chain) c [subject] c₁ →
      c₁.Takes (· == .mark .openBracket) left c₂ → Reads .done .sequence c₂ [index] c₃ →
      c₃.Takes (· == .mark .closeBracket) right c₄ →
      Reads .begun (.expression .chain) c
        [expression [subject, left.leaf, index, right.leaf]] c₄
  | call {c c₁ c₂ : Cursor} {subject arguments : Tree} :
      Reads .begun (.expression .chain) c [subject] c₁ → Reads .done .arguments c₁ [arguments] c₂ →
      Reads .begun (.expression .chain) c [expression [subject, arguments]] c₂
  | accesses {c c₁ : Cursor} {tree : Tree} :
      Reads .begun (.expression .chain) c [tree] c₁ → c₁.sees Kind.isAccess = false →
      Reads .done (.expression .chain) c [tree] c₁
  | atom {c c₁ : Cursor} {token : Token} :
      c.Takes Kind.isAtom token c₁ → Reads .done (.expression .primary) c [.atom token.leaf] c₁
  | array {c c₁ c₂ c₃ : Cursor} {left right : Token} {elements : List Tree} :
      c.Takes (· == .mark .openBracket) left c₁ → Reads .done .elements c₁ elements c₂ →
      c₂.Takes (· == .mark .closeBracket) right c₃ →
      Reads .done (.expression .primary) c
        [expression [branch .arrayLiteral
          [left.leaf, branch .elementList elements c₁.start, right.leaf] c.start]] c₃
  | parenthesized {c c₁ c₂ c₃ : Cursor} {left right : Token} {inner : Tree} :
      c.Takes (· == .mark .openParen) left c₁ → Reads .done .sequence c₁ [inner] c₂ →
      c₂.Takes (· == .mark .closeParen) right c₃ →
      Reads .done (.expression .primary) c [expression [left.leaf, inner, right.leaf]] c₃
  -- Parts of expressions
  | sequence {c c₁ : Cursor} {items : List Tree} :
      Reads .done (.list (.expression .assignment)) c items c₁ →
      Reads .done .sequence c [branch .expressionSequence items c.start] c₁
  | argument {c c₁ : Cursor} {value : Tree} :
      Reads .done (.expression .assignment) c [value] c₁ →
      Reads .done .argument c [wrap .argument value] c₁
  | noArguments {c c₁ c₂ : Cursor} {left right : Token} :
      c.Takes (· == .mark .openParen) left c₁ → c₁.Takes (· == .mark .closeParen) right c₂ →
      Reads .done .arguments c [branch .arguments [left.leaf, right.leaf] left.span.start] c₂
  | arguments {c c₁ c₂ c₃ : Cursor} {left right : Token} {items : List Tree} :
      c.Takes (· == .mark .openParen) left c₁ → c₁.sees (· == .mark .closeParen) = false →
      Reads .done (.list .argument) c₁ items c₂ → c₂.Takes (· == .mark .closeParen) right c₃ →
      Reads .done .arguments c
        [branch .arguments (left.leaf :: items ++ [right.leaf]) left.span.start] c₃
  | noElements {c : Cursor} :
      c.tokens = [] ∨ c.sees (· == .mark .closeBracket) = true → Reads .done .elements c [] c
  | skippedElement {c c₁ c₂ : Cursor} {comma : Token} {rest : List Tree} :
      c.Takes (· == .mark .comma) comma c₁ → Reads .done .elements c₁ rest c₂ →
      Reads .done .elements c (comma.leaf :: rest) c₂
  | lastElement {c c₁ : Cursor} {value : Tree} :
      c.tokens ≠ [] → c.sees (· == .mark .closeBracket) = false →
      c.sees (· == .mark .comma) = false → Reads .done (.expression .assignment) c [value] c₁ →
      c₁.sees (· == .mark .closeBracket) = true →
      Reads .done .elements c [wrap .arrayElement value] c₁
  | element {c c₁ c₂ c₃ : Cursor} {comma : Token} {value : Tree} {rest : List Tree} :
      c.tokens ≠ [] → c.sees (· == .mark .closeBracket) = false →
      c.sees (· == .mark .comma) = false → Reads .done (.expression .assignment) c [value] c₁ →
      c₁.Takes (· == .mark .comma) comma c₂ → Reads .done .elements c₂ rest c₃ →
      Reads .done .elements c (wrap .arrayElement value :: comma.leaf :: rest) c₃
  -- Statements
  | endMark {c c₁ : Cursor} {semicolon : Token} :
      c.Takes (· == .mark .semicolon) semicolon c₁ →
      Reads .done .ending c [wrap .eos semicolon.leaf] c₁
  | noEndMark {c : Cursor} :
      c.sees (· == .mark .semicolon) = false →
      c.sees (· == .mark .closeBrace) = true ∨ c.tokens = [] ∨ c.newlineBefore = true →
      Reads .done .ending c [branch .eos [] c.previousEnd] c
  | bareDeclarator {c c₁ : Cursor} {name : Tree} :
      Reads .done .assignable c [name] c₁ → c₁.sees (· == .mark .assign) = false →
      Reads .done .declarator c [wrap .variableDeclaration name] c₁
  | declarator {c c₁ c₂ c₃ : Cursor} {sign : Token} {name value : Tree} :
      Reads .done .assignable c [name] c₁ → c₁.Takes (· == .mark .assign) sign c₂ →
      Reads .done (.expression .assignment) c₂ [value] c₃ →
      Reads .done .declarator c
        [branch .variableDeclaration [name, sign.leaf, value] c.start] c₃
  | variableStatement {c c₁ c₂ c₃ : Cursor} {modifier : Token} {ending : Tree}
      {declarators : List Tree} :
      c.Takes Kind.isDeclarer modifier c₁ → Reads .done (.list .declarator) c₁ declarators c₂ →
      Reads .done .ending c₂ [ending] c₃ →
      Reads .done .variableStatement c
        [branch .variableStatement
          [branch .variableDeclarationList (wrap .varModifier modifier.leaf :: declarators) c.start,
            ending] c.start] c₃
  | emptyStatement {c c₁ : Cursor} {semicolon : Token} :
      c.Takes (· == .mark .semicolon) semicolon c₁ →
      Reads .done .emptyStatement c [wrap .emptyStatement semicolon.leaf] c₁
  | expressionStatement {c c₁ c₂ : Cursor} {sequence ending : Tree} :
      Reads .done .sequence c [sequence] c₁ → Reads .done .ending c₁ [ending] c₂ →
      Reads .done .expressionStatement c
        [branch .expressionStatement [sequence, ending] c.start] c₂
  | noValue {c : Cursor} :
      c.sees (· == .mark .semicolon) = true ∨ c.sees (· == .mark .closeBrace) = true ∨
        c.tokens = [] ∨ c.newlineBefore = true →
      Reads .done (.optional .sequence) c [] c
  | value {c c₁ : Cursor} {sequence : Tree} :
      c.sees (· == .mark .semicolon) = false → c.sees (· == .mark .closeBrace) = false →
      c.tokens ≠ [] → c.newlineBefore = false → Reads .done .sequence c [sequence] c₁ →
      Reads .done (.optional .sequence) c [sequence] c₁
  | returnStatement {c c₁ c₂ c₃ : Cursor} {keyword : Token} {ending : Tree} {value : List Tree} :
      c.Takes (· == .word .returnWord) keyword c₁ → Reads .done (.optional .sequence) c₁ value c₂ →
      Reads .done .ending c₂ [ending] c₃ →
      Reads .done .returnStatement c
        [branch .returnStatement (keyword.leaf :: value ++ [ending]) c.start] c₃
  | parameter {c c₁ : Cursor} {name : Tree} :
      Reads .done .assignable c [name] c₁ →
      Reads .done .parameter c [wrap .formalParameterArg name] c₁
  | parameterList {c c₁ : Cursor} {parameters : List Tree} :
      Reads .done (.list .parameter) c parameters c₁ →
      Reads .done .parameterList c [branch .formalParameterList parameters c.start] c₁
  | noParameters {c : Cursor} :
      c.sees (· == .mark .closeParen) = true → Reads .done (.optional .parameterList) c [] c
  | parameters {c c₁ : Cursor} {parameters : Tree} :
      c.sees (· == .mark .closeParen) = false → Reads .done .parameterList c [parameters] c₁ →
      Reads .done (.optional .parameterList) c [parameters] c₁
  | function {c c₁ c₂ c₃ c₄ c₅ c₆ c₇ c₈ : Cursor} {keyword left right opening closing : Token}
      {name elements : Tree} {parameters : List Tree} :
      c.Takes (· == .word .functionWord) keyword c₁ → Reads .done .identifier c₁ [name] c₂ →
      c₂.Takes (· == .mark .openParen) left c₃ →
      Reads .done (.optional .parameterList) c₃ parameters c₄ →
      c₄.Takes (· == .mark .closeParen) right c₅ → c₅.Takes (· == .mark .openBrace) opening c₆ →
      Reads .done .sourceElements c₆ [elements] c₇ →
      c₇.Takes (· == .mark .closeBrace) closing c₈ →
      Reads .done .function c
        [branch .functionDeclaration
          ([keyword.leaf, name, left.leaf] ++ parameters ++
            [right.leaf,
              branch .functionBody [opening.leaf, elements, closing.leaf] c₅.start]) c.start] c₈
  | block {c c₁ c₂ c₃ : Cursor} {opening closing : Token} {statements : List Tree} :
      c.Takes (· == .mark .openBrace) opening c₁ → Reads .done (.many .statement) c₁ statements c₂ →
      c₂.Takes (· == .mark .closeBrace) closing c₃ →
      Reads .done .block c
        [branch .block
          [opening.leaf, branch .statementList statements c₁.start, closing.leaf] c.start] c₃
  | ifThen {c c₁ c₂ c₃ c₄ c₅ : Cursor} {keyword left right : Token} {condition consequence : Tree} :
      c.Takes (· == .word .ifWord) keyword c₁ → c₁.Takes (· == .mark .openParen) left c₂ →
      Reads .done .sequence c₂ [condition] c₃ → c₃.Takes (· == .mark .closeParen) right c₄ →
      Reads .done .statement c₄ [consequence] c₅ → c₅.sees (· == .word .elseWord) = false →
      Reads .done .conditional c
        [branch .ifStatement
          [keyword.leaf, left.leaf, condition, right.leaf, consequence] c.start] c₅
  | ifThenElse {c c₁ c₂ c₃ c₄ c₅ c₆ c₇ : Cursor} {keyword left right otherwise : Token}
      {condition consequence alternative : Tree} :
      c.Takes (· == .word .ifWord) keyword c₁ → c₁.Takes (· == .mark .openParen) left c₂ →
      Reads .done .sequence c₂ [condition] c₃ → c₃.Takes (· == .mark .closeParen) right c₄ →
      Reads .done .statement c₄ [consequence] c₅ → c₅.Takes (· == .word .elseWord) otherwise c₆ →
      Reads .done .statement c₆ [alternative] c₇ →
      Reads .done .conditional c
        [branch .ifStatement
          [keyword.leaf, left.leaf, condition, right.leaf, consequence, otherwise.leaf,
            alternative] c.start] c₇
  | loop {c c₁ c₂ c₃ c₄ c₅ : Cursor} {keyword left right : Token} {condition body : Tree} :
      c.Takes (· == .word .whileWord) keyword c₁ → c₁.Takes (· == .mark .openParen) left c₂ →
      Reads .done .sequence c₂ [condition] c₃ → c₃.Takes (· == .mark .closeParen) right c₄ →
      Reads .done .statement c₄ [body] c₅ →
      Reads .done .loop c
        [branch .iterationStatement
          [keyword.leaf, left.leaf, condition, right.leaf, body] c.start] c₅
  | statement {c c₁ : Cursor} {tree : Tree} :
      Reads .done (.ofFirst c.kind?) c [tree] c₁ →
      Reads .done .statement c [wrap .statement tree] c₁
  | sourceElement {c c₁ : Cursor} {statement : Tree} :
      Reads .done .statement c [statement] c₁ →
      Reads .done .sourceElement c [wrap .sourceElement statement] c₁
  | sourceElements {c c₁ : Cursor} {elements : List Tree} :
      Reads .done (.many .sourceElement) c elements c₁ →
      Reads .done .sourceElements c [branch .sourceElements elements c.start] c₁
  | program {c c₁ : Cursor} {elements : Tree} :
      Reads .done .sourceElements c [elements] c₁ → c₁.tokens = [] →
      Reads .done .program c [branch .program [elements, c₁.endLeaf] 0] c₁

/-! ## Readings have derivations -/

namespace Cursor

/-- What is taken has been seen. -/
theorem Takes.sees {test : Kind → Bool} {c c₁ : Cursor} {token : Token}
    (h : c.Takes test token c₁) : c.sees test = true := by
  cases h with
  | intro hkind => exact hkind

/-- A token passes a weaker test too. -/
theorem Takes.mono {test other : Kind → Bool} {c c₁ : Cursor} {token : Token}
    (h : c.Takes test token c₁) (hother : test token.kind = true → other token.kind = true) :
    c.Takes other token c₁ := by
  cases h with
  | intro hkind => exact .intro (hother hkind)

/-- What is taken passes the test. -/
theorem Takes.test_kind {test : Kind → Bool} {c c₁ : Cursor} {token : Token}
    (h : c.Takes test token c₁) : test token.kind = true := by
  cases h with
  | intro hkind => exact hkind

section

variable {test other : Kind → Bool} {c : Cursor}

/-- To see a token is to pass the test with its kind. -/
theorem sees_iff : c.sees test = true ↔ ∃ kind, c.kind? = some kind ∧ test kind = true :=
  Option.any_eq_true _ _

/-- A weaker test sees as much. -/
theorem sees_mono (h : c.sees test = true) (hother : ∀ kind, test kind = true → other kind = true) :
    c.sees other = true := by
  obtain ⟨kind, hkind, htest⟩ := sees_iff.mp h
  exact sees_iff.mpr ⟨kind, hkind, hother kind htest⟩

/-- A token that passes a test fails the tests that exclude that one. -/
theorem sees_eq_false (h : c.sees test = true)
    (hother : ∀ kind, test kind = true → other kind = false) : c.sees other = false := by
  obtain ⟨kind, hkind, htest⟩ := sees_iff.mp h
  unfold sees
  rw [hkind, Option.any_some, hother kind htest]

/-- A stronger test sees no more. -/
theorem sees_eq_false_mono (h : c.sees other = false)
    (hother : ∀ kind, test kind = true → other kind = true) : c.sees test = false := by
  rw [Bool.eq_false_iff] at h ⊢
  exact fun htest => h (sees_mono htest hother)

/-- A token that passes a test is none of those that fail it. -/
theorem sees_kind_eq_false (kind : Kind) (h : c.sees test = true) (hkind : test kind = false) :
    c.sees (· == kind) = false := by
  apply sees_eq_false h
  intro found htest
  rw [beq_eq_false_iff_ne]
  rintro rfl
  rw [hkind] at htest
  cases htest

/-- The kind that is seen is the kind that is there. -/
theorem kind?_of_sees {kind : Kind} (h : c.sees (· == kind) = true) : c.kind? = some kind := by
  obtain ⟨found, hfound, heq⟩ := sees_iff.mp h
  rw [hfound, beq_iff_eq.mp heq]

/-- Where something is seen, tokens are left. -/
theorem tokens_ne_nil_of_sees (h : c.sees test = true) : c.tokens ≠ [] := by
  intro htokens
  simp [sees, kind?, htokens] at h

end

/-- Either the next token passes a test and is taken, or it is seen not to. -/
theorem takeIf?_cases (c : Cursor) (test : Kind → Bool) :
    (∃ token c₁ h, c.Takes test token c₁ ∧ c.takeIf? test = some ⟨token.leaf, c₁, h⟩) ∨
      (c.sees test = false ∧ c.takeIf? test = none) := by
  obtain ⟨tokens, endOffset, newlineBeforeEnd, previousEnd⟩ := c
  cases tokens with
  | nil => exact .inr ⟨rfl, rfl⟩
  | cons token rest =>
    cases h : test token.kind with
    | true =>
      refine .inl ⟨token, _, ?_, .intro h, ?_⟩
      · exact Nat.lt_succ_self _
      · simp [takeIf?, h, Token.leaf]
    | false => exact .inr ⟨h, by simp [takeIf?, h]⟩

/-- A token of a kind is taken, or it is not there. -/
theorem take?_cases (c : Cursor) (kind : Kind) :
    (∃ token c₁ h, c.Takes (· == kind) token c₁ ∧ c.take? kind = some ⟨token.leaf, c₁, h⟩) ∨
      (c.sees (· == kind) = false ∧ c.take? kind = none) :=
  c.takeIf?_cases (· == kind)

/-- A token that was expected has been taken. -/
theorem takes_of_expect {c : Cursor} {kind : Kind} {reading : Reading Tree c.remaining}
    (h : c.expect kind = .ok reading) :
    ∃ token, c.Takes (· == kind) token reading.next ∧ reading.value = token.leaf := by
  unfold expect at h
  rcases c.take?_cases kind with ⟨token, c₁, hbelow, htakes, htake⟩ | ⟨-, htake⟩
  · rw [htake] at h
    cases h
    exact ⟨token, htakes, rfl⟩
  · rw [htake] at h
    cases h

/-- A mark that was expected has been taken. -/
theorem takes_of_expectMark {c : Cursor} {mark : Mark} {reading : Reading Tree c.remaining}
    (h : c.expectMark mark = .ok reading) :
    ∃ token, c.Takes (· == .mark mark) token reading.next ∧ reading.value = token.leaf :=
  takes_of_expect h

/-- To be at a mark is to see it. -/
@[simp] theorem isAt_eq_sees (c : Cursor) (mark : Mark) :
    c.isAt mark = c.sees (· == .mark mark) := by
  unfold isAt sees
  cases c.kind? <;> rfl

/-- Whether a sign is the plain one is seen from the cursor before it is taken. -/
theorem Takes.assignmentOperator {test : Kind → Bool} {c c₁ : Cursor} {sign : Token}
    (h : c.Takes test sign c₁) :
    (if c.isAt .assign then sign.leaf else wrap .assignmentOperator sign.leaf) =
      sign.assignmentOperator := by
  cases h
  simp [isAt, kind?, Token.assignmentOperator]

/-- A cursor is at an access when it is at one of the three sorts of access. -/
theorem sees_isAccess (c : Cursor) :
    c.sees Kind.isAccess =
      (c.sees (· == .mark .dot) || c.sees (· == .mark .openBracket) ||
        c.sees (· == .mark .openParen)) := by
  unfold sees
  cases c.kind? with
  | none => rfl
  | some kind =>
    cases kind with
    | mark mark => cases mark <;> rfl
    | _ => rfl

end Cursor

open Cursor

/-- What is read as a name is a name. -/
theorem reads_of_readName {c : Cursor} {reading : Reading Tree c.remaining}
    (h : c.readName = .ok reading) : Reads .done .identifier c [reading.value] reading.next := by
  unfold readName at h
  obtain ⟨name, hname, h⟩ := bind_eq_ok.mp h
  obtain ⟨token, htakes, hleaf⟩ := takes_of_expect hname
  cases h
  have hreads := Reads.identifier htakes
  rw [← hleaf] at hreads
  exact hreads

/-- The name of a member is a name or, failing that, a reserved word. -/
theorem readMemberName_eq (c : Cursor) :
    c.readMemberName =
      match c.take? .name with
      | some name => .ok (name.map fun leaf => wrap .identifierName (wrap .identifier leaf))
      | none =>
        match c.takeIf? Kind.isWord with
        | some word => .ok (word.map (wrap .identifierName))
        | none => c.refuse .propertyName := rfl

/-- What is read behind a dot is a name. -/
theorem reads_of_readMemberName {c : Cursor} {reading : Reading Tree c.remaining}
    (h : c.readMemberName = .ok reading) :
    Reads .done .memberName c [reading.value] reading.next := by
  rw [readMemberName_eq] at h
  rcases c.take?_cases .name with ⟨token, c₁, hbelow, htakes, htake⟩ | ⟨-, htake⟩
  · rw [htake] at h
    cases h
    exact .memberName htakes
  · simp only [htake] at h
    rcases c.takeIf?_cases Kind.isWord with ⟨token, c₁, hbelow, htakes, htake⟩ | ⟨-, htake⟩
    · rw [htake] at h
      cases h
      exact .memberWord htakes
    · rw [htake] at h
      cases h

mutual

/-- What is read between commas is a list. -/
theorem reads_of_readCommaList {c : Cursor} {reading : Reading CommaList c.remaining}
    (h : c.readCommaList = .ok reading) {item : Phrase} {wrapped : Tree → Tree}
    (hitem : ∀ {c tree c₁}, Reads .done (.expression .assignment) c [tree] c₁ →
      Reads .done item c [wrapped tree] c₁) :
    Reads .done (.list item) c (reading.value.flatten wrapped) reading.next := by
  rw [readCommaList] at h
  obtain ⟨⟨first, c₁, hfirst⟩, hread, h⟩ := bind_eq_ok.mp h
  obtain ⟨⟨rest, c₂, hrest⟩, hmore, h⟩ := bind_eq_ok.mp h
  cases h
  exact reads_of_readMoreItems hmore hitem (hitem (reads_of_readAssignment hread))
termination_by (c.remaining, 31)
decreasing_by all_goals simp only [lex_iff]; omega

/-- After an item, the items that follow it make up a list with it. -/
theorem reads_of_readMoreItems {c : Cursor}
    {reading : Reading (List (Tree × Tree)) (c.remaining + 1)} (h : c.readMoreItems = .ok reading)
    {item : Phrase} {wrapped : Tree → Tree}
    (hitem : ∀ {c tree c₁}, Reads .done (.expression .assignment) c [tree] c₁ →
      Reads .done item c [wrapped tree] c₁)
    {c₀ : Cursor} {first : Tree} (hfirst : Reads .done item c₀ [wrapped first] c) :
    Reads .done (.list item) c₀ (CommaList.flatten ⟨first, reading.value⟩ wrapped)
      reading.next := by
  rw [readMoreItems] at h
  rcases c.take?_cases (.mark .comma) with ⟨comma, c₁, hcomma, htakes, htake⟩ | ⟨hsees, htake⟩
  · simp only [htake] at h
    obtain ⟨⟨next, c₂, hnext⟩, hread, h⟩ := bind_eq_ok.mp h
    obtain ⟨⟨rest, c₃, hrest⟩, hmore, h⟩ := bind_eq_ok.mp h
    cases h
    have hlist := reads_of_readMoreItems hmore hitem (hitem (reads_of_readAssignment hread))
    exact .moreItems hfirst htakes hlist
  · simp only [htake] at h
    cases h
    exact .oneItem hfirst hsees
termination_by (c.remaining, 0)
decreasing_by all_goals simp only [lex_iff]; omega

/-- What is read as a sequence is one. -/
theorem reads_of_readSequence {c : Cursor} {reading : Reading Tree c.remaining}
    (h : c.readSequence = .ok reading) : Reads .done .sequence c [reading.value] reading.next := by
  rw [readSequence] at h
  obtain ⟨⟨list, c₁, hlist⟩, hread, h⟩ := bind_eq_ok.mp h
  cases h
  exact .sequence (reads_of_readCommaList hread id)
termination_by (c.remaining, 32)
decreasing_by all_goals simp only [lex_iff]; omega

/-- What is read as an assignment is one. -/
theorem reads_of_readAssignment {c : Cursor} {reading : Reading Tree c.remaining}
    (h : c.readAssignment = .ok reading) :
    Reads .done (.expression .assignment) c [reading.value] reading.next := by
  rw [readAssignment] at h
  obtain ⟨⟨target, c₁, htarget⟩, hread, h⟩ := bind_eq_ok.mp h
  have htargetReads := reads_of_readBinary hread
  rcases c₁.takeIf?_cases Kind.isAssignment with
    ⟨sign, c₂, hsign, htakes, htake⟩ | ⟨hsees, htake⟩
  · simp only [htake] at h
    obtain ⟨⟨value, c₃, hvalue⟩, hread, h⟩ := bind_eq_ok.mp h
    cases h
    rw [htakes.assignmentOperator]
    exact .assignment htargetReads htakes (reads_of_readAssignment hread)
  · simp only [htake] at h
    cases h
    exact .noAssignment htargetReads hsees
termination_by (c.remaining, 30)
decreasing_by all_goals simp only [lex_iff, Level.looseness_disjunction]; omega

/-- What is read at a level is an expression of that level. -/
theorem reads_of_readBinary {c : Cursor} {level : Level} {reading : Reading Tree c.remaining}
    (h : c.readBinary level = .ok reading) :
    Reads .done (.expression (.level level)) c [reading.value] reading.next := by
  rw [readBinary] at h
  obtain ⟨⟨left, c₁, hleft⟩, hread, h⟩ := bind_eq_ok.mp h
  obtain ⟨⟨tree, c₂, htree⟩, hmore, h⟩ := bind_eq_ok.mp h
  cases h
  exact reads_of_readOperations hmore (.operand (reads_of_readOperand hread))
termination_by (c.remaining, 6 + 2 * level.looseness)
decreasing_by all_goals simp only [lex_iff]; omega

/-- The operands of a level are of the level below. -/
theorem reads_of_readOperand {c : Cursor} {level : Level} {reading : Reading Tree c.remaining}
    (h : c.readOperand level = .ok reading) :
    Reads .done (.expression level.operand) c [reading.value] reading.next := by
  rw [readOperand] at h
  unfold Level.operand
  split at h
  · rename_i tighter htighter
    have := Level.looseness_of_tighter? htighter
    rw [htighter]
    exact reads_of_readBinary h
  · rename_i htighter
    rw [htighter]
    exact reads_of_readPower h
termination_by (c.remaining, 5 + 2 * level.looseness)
decreasing_by all_goals simp only [lex_iff]; omega

/-- After a left operand, the operations that follow it make up an expression with it. -/
theorem reads_of_readOperations {c : Cursor} {level : Level} {left : Tree}
    {reading : Reading Tree (c.remaining + 1)} (h : c.readOperations level left = .ok reading)
    {c₀ : Cursor} (hleft : Reads .begun (.expression (.level level)) c₀ [left] c) :
    Reads .done (.expression (.level level)) c₀ [reading.value] reading.next := by
  rw [readOperations] at h
  rcases c.takeIf?_cases level.accepts with ⟨sign, c₁, hsign, htakes, htake⟩ | ⟨hsees, htake⟩
  · simp only [htake] at h
    obtain ⟨⟨right, c₂, hright⟩, hread, h⟩ := bind_eq_ok.mp h
    obtain ⟨⟨tree, c₃, htree⟩, hmore, h⟩ := bind_eq_ok.mp h
    cases h
    exact reads_of_readOperations hmore (.binary hleft htakes (reads_of_readOperand hread))
  · simp only [htake] at h
    cases h
    exact .operations hleft hsees
termination_by (c.remaining, 0)
decreasing_by all_goals simp only [lex_iff]; omega

/-- What is read as a power is one. -/
theorem reads_of_readPower {c : Cursor} {reading : Reading Tree c.remaining}
    (h : c.readPower = .ok reading) :
    Reads .done (.expression .power) c [reading.value] reading.next := by
  rw [readPower] at h
  obtain ⟨⟨base, c₁, hbase⟩, hread, h⟩ := bind_eq_ok.mp h
  have hbaseReads := reads_of_readSigned hread
  rcases c₁.take?_cases (.mark .power) with ⟨sign, c₂, hsign, htakes, htake⟩ | ⟨hsees, htake⟩
  · simp only [htake] at h
    obtain ⟨⟨exponent, c₃, hexponent⟩, hread, h⟩ := bind_eq_ok.mp h
    cases h
    exact .power hbaseReads htakes (reads_of_readPower hread)
  · simp only [htake] at h
    cases h
    exact .noPower hbaseReads hsees
termination_by (c.remaining, 4)
decreasing_by all_goals simp only [lex_iff]; omega

/-- What is read with its signs is a signed expression. -/
theorem reads_of_readSigned {c : Cursor} {reading : Reading Tree c.remaining}
    (h : c.readSigned = .ok reading) :
    Reads .done (.expression .signed) c [reading.value] reading.next := by
  rw [readSigned] at h
  rcases c.takeIf?_cases Kind.isPrefixSign with ⟨sign, c₁, hsign, htakes, htake⟩ | ⟨hsees, htake⟩
  · simp only [htake] at h
    obtain ⟨⟨operand, c₂, hoperand⟩, hread, h⟩ := bind_eq_ok.mp h
    cases h
    exact .signed htakes (reads_of_readSigned hread)
  · simp only [htake] at h
    exact .unsigned hsees (reads_of_readStepped h)
termination_by (c.remaining, 3)
decreasing_by all_goals simp only [lex_iff]; omega

/-- What is read with a step is a stepped expression. -/
theorem reads_of_readStepped {c : Cursor} {reading : Reading Tree c.remaining}
    (h : c.readStepped = .ok reading) :
    Reads .done (.expression .stepped) c [reading.value] reading.next := by
  rw [readStepped] at h
  obtain ⟨⟨operand, c₁, hoperand⟩, hread, h⟩ := bind_eq_ok.mp h
  have hoperandReads := reads_of_readChain hread
  rcases c₁.takeIf?_cases fun kind => kind.isStep && !c₁.newlineBefore with
    ⟨sign, c₂, hsign, htakes, htake⟩ | ⟨hsees, htake⟩
  · simp only [htake] at h
    cases h
    exact .stepped hoperandReads htakes
  · simp only [htake] at h
    cases h
    exact .noStep hoperandReads hsees
termination_by (c.remaining, 2)
decreasing_by all_goals simp only [lex_iff]; omega

/-- What is read with its accesses is a chain. -/
theorem reads_of_readChain {c : Cursor} {reading : Reading Tree c.remaining}
    (h : c.readChain = .ok reading) :
    Reads .done (.expression .chain) c [reading.value] reading.next := by
  rw [readChain] at h
  obtain ⟨⟨subject, c₁, hsubject⟩, hread, h⟩ := bind_eq_ok.mp h
  obtain ⟨⟨tree, c₂, htree⟩, hmore, h⟩ := bind_eq_ok.mp h
  cases h
  exact reads_of_readAccesses hmore (.subject (reads_of_readPrimary hread))
termination_by (c.remaining, 1)
decreasing_by all_goals simp only [lex_iff]; omega

/-- After a subject, the accesses that follow it make up a chain with it. -/
theorem reads_of_readAccesses {c : Cursor} {subject : Tree}
    {reading : Reading Tree (c.remaining + 1)} (h : c.readAccesses subject = .ok reading)
    {c₀ : Cursor} (hsubject : Reads .begun (.expression .chain) c₀ [subject] c) :
    Reads .done (.expression .chain) c₀ [reading.value] reading.next := by
  rw [readAccesses] at h
  rcases c.take?_cases (.mark .dot) with ⟨dot, c₁, hdot, hdotTakes, htake⟩ | ⟨hnoDot, htake⟩
  · simp only [htake] at h
    obtain ⟨⟨name, c₂, hname⟩, hread, h⟩ := bind_eq_ok.mp h
    obtain ⟨⟨tree, c₃, htree⟩, hmore, h⟩ := bind_eq_ok.mp h
    cases h
    exact reads_of_readAccesses hmore (.member hsubject hdotTakes (reads_of_readMemberName hread))
  simp only [htake] at h
  rcases c.take?_cases (.mark .openBracket) with
    ⟨left, c₁, hleft, hleftTakes, htake⟩ | ⟨hnoBracket, htake⟩
  · simp only [htake] at h
    obtain ⟨⟨index, c₂, hindex⟩, hread, h⟩ := bind_eq_ok.mp h
    obtain ⟨⟨right, c₃, hright⟩, hexpect, h⟩ := bind_eq_ok.mp h
    obtain ⟨⟨tree, c₄, htree⟩, hmore, h⟩ := bind_eq_ok.mp h
    cases h
    obtain ⟨token, hrightTakes, rfl⟩ := takes_of_expectMark hexpect
    change c₃.remaining < c₂.remaining at hright
    exact reads_of_readAccesses hmore
      (.index hsubject hleftTakes (reads_of_readSequence hread) hrightTakes)
  simp only [htake] at h
  rcases c.take?_cases (.mark .openParen) with
    ⟨left, c₁, hleft, hleftTakes, htake⟩ | ⟨hnoParen, htake⟩
  · simp only [htake] at h
    obtain ⟨⟨arguments, c₂, harguments⟩, hread, h⟩ := bind_eq_ok.mp h
    obtain ⟨⟨tree, c₃, htree⟩, hmore, h⟩ := bind_eq_ok.mp h
    cases h
    exact reads_of_readAccesses hmore (.call hsubject (reads_of_readArguments hread hleftTakes))
  simp only [htake] at h
  cases h
  have hnone : c.sees Kind.isAccess = false := by
    rw [sees_isAccess, hnoDot, hnoBracket, hnoParen]
    rfl
  exact .accesses hsubject hnone
termination_by (c.remaining, 0)
decreasing_by all_goals simp only [lex_iff]; omega

/-- What is read in parentheses behind a chain are arguments. -/
theorem reads_of_readArguments {c : Cursor} {left : Token} {reading : Reading Tree c.remaining}
    (h : c.readArguments left.leaf = .ok reading) {c₀ : Cursor}
    (hleft : c₀.Takes (· == .mark .openParen) left c) :
    Reads .done .arguments c₀ [reading.value] reading.next := by
  rw [readArguments] at h
  rcases c.take?_cases (.mark .closeParen) with
    ⟨right, c₁, hright, hrightTakes, htake⟩ | ⟨hsees, htake⟩
  · simp only [htake] at h
    cases h
    exact .noArguments hleft hrightTakes
  · simp only [htake] at h
    obtain ⟨⟨list, c₁, hlist⟩, hread, h⟩ := bind_eq_ok.mp h
    obtain ⟨⟨right, c₂, hright⟩, hexpect, h⟩ := bind_eq_ok.mp h
    cases h
    obtain ⟨token, hrightTakes, rfl⟩ := takes_of_expectMark hexpect
    exact .arguments hleft hsees (reads_of_readCommaList hread .argument) hrightTakes
termination_by (c.remaining, 33)
decreasing_by all_goals simp only [lex_iff]; omega

/-- What is read as a primary expression is one. -/
theorem reads_of_readPrimary {c : Cursor} {reading : Reading Tree c.remaining}
    (h : c.readPrimary = .ok reading) :
    Reads .done (.expression .primary) c [reading.value] reading.next := by
  rw [readPrimary] at h
  rcases c.takeIf?_cases Kind.isAtom with ⟨token, c₁, htoken, htakes, htake⟩ | ⟨-, htake⟩
  · simp only [htake] at h
    cases h
    exact .atom htakes
  simp only [htake] at h
  rcases c.take?_cases (.mark .openBracket) with ⟨left, c₁, hleft, hleftTakes, htake⟩ | ⟨-, htake⟩
  · simp only [htake] at h
    obtain ⟨⟨elements, c₂, helements⟩, hread, h⟩ := bind_eq_ok.mp h
    obtain ⟨⟨right, c₃, hright⟩, hexpect, h⟩ := bind_eq_ok.mp h
    cases h
    obtain ⟨token, hrightTakes, rfl⟩ := takes_of_expectMark hexpect
    exact .array hleftTakes (reads_of_readElements hread) hrightTakes
  simp only [htake] at h
  rcases c.take?_cases (.mark .openParen) with ⟨left, c₁, hleft, hleftTakes, htake⟩ | ⟨-, htake⟩
  · simp only [htake] at h
    obtain ⟨⟨inner, c₂, hinner⟩, hread, h⟩ := bind_eq_ok.mp h
    obtain ⟨⟨right, c₃, hright⟩, hexpect, h⟩ := bind_eq_ok.mp h
    cases h
    obtain ⟨token, hrightTakes, rfl⟩ := takes_of_expectMark hexpect
    exact .parenthesized hleftTakes (reads_of_readSequence hread) hrightTakes
  simp only [htake] at h
  cases h
termination_by (c.remaining, 0)
decreasing_by all_goals simp only [lex_iff]; omega

/-- What is read in brackets are elements. -/
theorem reads_of_readElements {c : Cursor} {reading : Reading (List Tree) (c.remaining + 1)}
    (h : c.readElements = .ok reading) : Reads .done .elements c reading.value reading.next := by
  rw [readElements] at h
  by_cases hend : c.tokens.isEmpty || c.isAt .closeBracket
  · rw [if_pos hend] at h
    cases h
    apply Reads.noElements
    simpa using hend
  rw [if_neg hend] at h
  simp only [isAt_eq_sees, Bool.or_eq_true, List.isEmpty_iff, not_or, Bool.not_eq_true] at hend
  rcases c.take?_cases (.mark .comma) with
    ⟨comma, c₁, hcomma, hcommaTakes, htake⟩ | ⟨hnoComma, htake⟩
  · simp only [htake] at h
    obtain ⟨⟨rest, c₂, hrest⟩, hmore, h⟩ := bind_eq_ok.mp h
    cases h
    exact .skippedElement hcommaTakes (reads_of_readElements hmore)
  simp only [htake] at h
  obtain ⟨⟨value, c₁, hvalue⟩, hread, h⟩ := bind_eq_ok.mp h
  have hvalueReads := reads_of_readAssignment hread
  dsimp only at h
  by_cases hlast : c₁.isAt .closeBracket
  · rw [if_pos hlast] at h
    cases h
    rw [isAt_eq_sees] at hlast
    exact .lastElement hend.1 hend.2 hnoComma hvalueReads hlast
  · rw [if_neg hlast] at h
    obtain ⟨⟨comma, c₂, hcomma⟩, hexpect, h⟩ := bind_eq_ok.mp h
    obtain ⟨⟨rest, c₃, hrest⟩, hmore, h⟩ := bind_eq_ok.mp h
    cases h
    obtain ⟨token, hcommaTakes, rfl⟩ := takes_of_expectMark hexpect
    exact .element hend.1 hend.2 hnoComma hvalueReads hcommaTakes (reads_of_readElements hmore)
termination_by (c.remaining, 34)
decreasing_by all_goals simp only [lex_iff]; omega

end

/-- After an item, the items that follow it make up a list with it. -/
theorem reads_of_readMoreOf {item : Phrase}
    {readItem : (cursor : Cursor) → Attempt Tree cursor.remaining}
    (hitem : ∀ {c reading}, readItem c = .ok reading →
      Reads .done item c [reading.value] reading.next)
    {c : Cursor} {reading : Reading (List (Tree × Tree)) (c.remaining + 1)}
    (h : c.readMoreOf readItem = .ok reading)
    {c₀ : Cursor} {first : Tree} (hfirst : Reads .done item c₀ [first] c) :
    Reads .done (.list item) c₀ (CommaList.flatten ⟨first, reading.value⟩ id) reading.next := by
  rw [readMoreOf] at h
  rcases c.take?_cases (.mark .comma) with ⟨comma, c₁, hcomma, htakes, htake⟩ | ⟨hsees, htake⟩
  · simp only [htake] at h
    obtain ⟨⟨next, c₂, hnext⟩, hread, h⟩ := bind_eq_ok.mp h
    obtain ⟨⟨rest, c₃, hrest⟩, hmore, h⟩ := bind_eq_ok.mp h
    cases h
    exact .moreItems hfirst htakes (reads_of_readMoreOf hitem hmore (hitem hread))
  · simp only [htake] at h
    cases h
    exact .oneItem hfirst hsees
termination_by c.remaining

/-- What is read between commas is a list of items. -/
theorem reads_of_readListOf {item : Phrase}
    {readItem : (cursor : Cursor) → Attempt Tree cursor.remaining}
    (hitem : ∀ {c reading}, readItem c = .ok reading →
      Reads .done item c [reading.value] reading.next)
    {c : Cursor} {reading : Reading CommaList c.remaining}
    (h : c.readListOf readItem = .ok reading) :
    Reads .done (.list item) c (reading.value.flatten id) reading.next := by
  unfold readListOf at h
  obtain ⟨⟨first, c₁, hfirst⟩, hread, h⟩ := bind_eq_ok.mp h
  obtain ⟨⟨rest, c₂, hrest⟩, hmore, h⟩ := bind_eq_ok.mp h
  cases h
  exact reads_of_readMoreOf hitem hmore (hitem hread)

/-- What ends a statement is an ending. -/
theorem reads_of_readStatementEnd {c : Cursor} {reading : Reading Tree (c.remaining + 1)}
    (h : c.readStatementEnd = .ok reading) :
    Reads .done .ending c [reading.value] reading.next := by
  unfold readStatementEnd at h
  rcases c.take?_cases (.mark .semicolon) with
    ⟨semicolon, c₁, hsemicolon, htakes, htake⟩ | ⟨hsees, htake⟩
  · simp only [htake] at h
    cases h
    exact .endMark htakes
  simp only [htake] at h
  by_cases hend : c.isAt .closeBrace || c.tokens.isEmpty || c.newlineBefore
  · rw [if_pos hend] at h
    cases h
    apply Reads.noEndMark hsees
    simpa [or_assoc] using hend
  · rw [if_neg hend] at h
    cases h

/-- What is read as the name of a variable is one. -/
theorem reads_of_readAssignable {c : Cursor} {reading : Reading Tree c.remaining}
    (h : c.readAssignable = .ok reading) :
    Reads .done .assignable c [reading.value] reading.next := by
  unfold readAssignable at h
  obtain ⟨name, hname, h⟩ := bind_eq_ok.mp h
  cases h
  exact .assignable (reads_of_readName hname)

/-- What is read as a declaration is one. -/
theorem reads_of_readDeclarator {c : Cursor} {reading : Reading Tree c.remaining}
    (h : c.readDeclarator = .ok reading) :
    Reads .done .declarator c [reading.value] reading.next := by
  unfold readDeclarator at h
  obtain ⟨⟨name, c₁, hname⟩, hread, h⟩ := bind_eq_ok.mp h
  have hnameReads := reads_of_readAssignable hread
  rcases c₁.take?_cases (.mark .assign) with ⟨sign, c₂, hsign, htakes, htake⟩ | ⟨hsees, htake⟩
  · simp only [htake] at h
    obtain ⟨⟨value, c₃, hvalue⟩, hread, h⟩ := bind_eq_ok.mp h
    cases h
    exact .declarator hnameReads htakes (reads_of_readAssignment hread)
  · simp only [htake] at h
    cases h
    exact .bareDeclarator hnameReads hsees

/-- What is read as a parameter is one. -/
theorem reads_of_readParameter {c : Cursor} {reading : Reading Tree c.remaining}
    (h : c.readParameter = .ok reading) :
    Reads .done .parameter c [reading.value] reading.next := by
  unfold readParameter at h
  obtain ⟨name, hname, h⟩ := bind_eq_ok.mp h
  cases h
  exact .parameter (reads_of_readAssignable hname)

/-- What is read as parameters is a list or nothing. -/
theorem reads_of_readParameters {c : Cursor} {reading : Reading (List Tree) (c.remaining + 1)}
    (h : c.readParameters = .ok reading) :
    Reads .done (.optional .parameterList) c reading.value reading.next := by
  unfold readParameters at h
  by_cases hnone : c.isAt .closeParen
  · rw [if_pos hnone] at h
    cases h
    rw [isAt_eq_sees] at hnone
    exact .noParameters hnone
  · rw [if_neg hnone] at h
    obtain ⟨⟨list, c₁, hlist⟩, hread, h⟩ := bind_eq_ok.mp h
    cases h
    rw [isAt_eq_sees, Bool.not_eq_true] at hnone
    exact .parameters hnone (.parameterList (reads_of_readListOf reads_of_readParameter hread))

/-- What is read behind `var` is a declaration. -/
theorem reads_of_readVariableStatement {c : Cursor} {reading : Reading Tree c.remaining}
    (h : c.readVariableStatement = .ok reading) :
    Reads .done .variableStatement c [reading.value] reading.next := by
  unfold readVariableStatement at h
  rcases c.takeIf?_cases Kind.isDeclarer with ⟨modifier, c₁, hmodifier, htakes, htake⟩ | ⟨-, htake⟩
  · simp only [htake] at h
    obtain ⟨⟨list, c₂, hlist⟩, hread, h⟩ := bind_eq_ok.mp h
    obtain ⟨⟨ending, c₃, hending⟩, hend, h⟩ := bind_eq_ok.mp h
    cases h
    exact .variableStatement htakes (reads_of_readListOf reads_of_readDeclarator hread)
      (reads_of_readStatementEnd hend)
  · simp only [htake] at h
    cases h

/-- A semicolon alone is an empty statement. -/
theorem reads_of_readEmptyStatement {c : Cursor} {reading : Reading Tree c.remaining}
    (h : c.readEmptyStatement = .ok reading) :
    Reads .done .emptyStatement c [reading.value] reading.next := by
  unfold readEmptyStatement at h
  obtain ⟨⟨semicolon, c₁, hsemicolon⟩, hexpect, h⟩ := bind_eq_ok.mp h
  cases h
  obtain ⟨token, htakes, rfl⟩ := takes_of_expectMark hexpect
  exact .emptyStatement htakes

/-- An expression with its ending is a statement. -/
theorem reads_of_readExpressionStatement {c : Cursor} {reading : Reading Tree c.remaining}
    (h : c.readExpressionStatement = .ok reading) :
    Reads .done .expressionStatement c [reading.value] reading.next := by
  unfold readExpressionStatement at h
  obtain ⟨⟨sequence, c₁, hsequence⟩, hread, h⟩ := bind_eq_ok.mp h
  obtain ⟨⟨ending, c₂, hending⟩, hend, h⟩ := bind_eq_ok.mp h
  cases h
  exact .expressionStatement (reads_of_readSequence hread) (reads_of_readStatementEnd hend)

/-- What is given back is a sequence or nothing. -/
theorem reads_of_readReturned {c : Cursor} {reading : Reading (List Tree) (c.remaining + 1)}
    (h : c.readReturned = .ok reading) :
    Reads .done (.optional .sequence) c reading.value reading.next := by
  unfold readReturned at h
  by_cases hnone : c.isAt .semicolon || c.isAt .closeBrace || c.tokens.isEmpty || c.newlineBefore
  · rw [if_pos hnone] at h
    cases h
    apply Reads.noValue
    simpa [or_assoc] using hnone
  · rw [if_neg hnone] at h
    obtain ⟨⟨sequence, c₁, hsequence⟩, hread, h⟩ := bind_eq_ok.mp h
    cases h
    simp only [isAt_eq_sees, Bool.or_eq_true, List.isEmpty_iff, not_or, Bool.not_eq_true] at hnone
    obtain ⟨⟨⟨hsemicolon, hbrace⟩, htokens⟩, hnewline⟩ := hnone
    exact .value hsemicolon hbrace htokens hnewline (reads_of_readSequence hread)

/-- What is read behind `return` is a return. -/
theorem reads_of_readReturn {c : Cursor} {reading : Reading Tree c.remaining}
    (h : c.readReturn = .ok reading) :
    Reads .done .returnStatement c [reading.value] reading.next := by
  unfold readReturn at h
  obtain ⟨⟨keyword, c₁, hkeyword⟩, hexpect, h⟩ := bind_eq_ok.mp h
  obtain ⟨⟨value, c₂, hvalue⟩, hread, h⟩ := bind_eq_ok.mp h
  obtain ⟨⟨ending, c₃, hending⟩, hend, h⟩ := bind_eq_ok.mp h
  cases h
  obtain ⟨token, htakes, rfl⟩ := takes_of_expect hexpect
  exact .returnStatement htakes (reads_of_readReturned hread) (reads_of_readStatementEnd hend)

/-- A condition is a sequence between parentheses. -/
theorem takes_of_readCondition {c : Cursor} {reading : Reading (List Tree) c.remaining}
    (h : c.readCondition = .ok reading) :
    ∃ left c₁ condition c₂ right, c.Takes (· == .mark .openParen) left c₁ ∧
      Reads .done .sequence c₁ [condition] c₂ ∧
      c₂.Takes (· == .mark .closeParen) right reading.next ∧
      reading.value = [left.leaf, condition, right.leaf] := by
  unfold readCondition at h
  obtain ⟨⟨left, c₁, hleft⟩, hexpectLeft, h⟩ := bind_eq_ok.mp h
  obtain ⟨⟨condition, c₂, hcondition⟩, hread, h⟩ := bind_eq_ok.mp h
  obtain ⟨⟨right, c₃, hright⟩, hexpectRight, h⟩ := bind_eq_ok.mp h
  cases h
  obtain ⟨leftToken, hleftTakes, rfl⟩ := takes_of_expectMark hexpectLeft
  obtain ⟨rightToken, hrightTakes, rfl⟩ := takes_of_expectMark hexpectRight
  exact ⟨leftToken, c₁, condition, c₂, rightToken, hleftTakes, reads_of_readSequence hread,
    hrightTakes, rfl⟩

/-- Read a statement of a given form. -/
def Cursor.readForm (c : Cursor) : Phrase → Attempt Tree c.remaining
  | .block => c.readBlock
  | .variableStatement => c.readVariableStatement
  | .emptyStatement => c.readEmptyStatement
  | .conditional => c.readConditional
  | .loop => c.readLoop
  | .returnStatement => c.readReturn
  | .function => c.readFunction
  | _ => c.readExpressionStatement

/-- A statement is read in the form that its first token settles. -/
theorem readStatement_eq (c : Cursor) :
    c.readStatement = do
      let inner ← c.readForm (.ofFirst c.kind?)
      return inner.map (wrap .statement) := by
  rw [readStatement]
  generalize c.kind? = kind
  split
  case h_10 =>
    rw [Phrase.ofFirst]
    · rfl
    all_goals assumption
  all_goals rfl

/-- The first token leads to one of the forms of statements. -/
theorem Phrase.ofFirst_mem (kind : Option Kind) :
    Phrase.ofFirst kind ∈ Phrase.statementForms := by
  unfold Phrase.ofFirst
  split <;> decide

mutual

/-- What is read as a statement is one. -/
theorem reads_of_readStatement {c : Cursor} {reading : Reading Tree c.remaining}
    (h : c.readStatement = .ok reading) :
    Reads .done .statement c [reading.value] reading.next := by
  rw [readStatement_eq] at h
  obtain ⟨inner, hinner, h⟩ := bind_eq_ok.mp h
  cases h
  apply Reads.statement
  have hform := Phrase.ofFirst_mem c.kind?
  generalize Phrase.ofFirst c.kind? = form at hinner hform ⊢
  simp only [Phrase.statementForms, List.mem_cons, List.not_mem_nil, or_false] at hform
  rcases hform with rfl | rfl | rfl | rfl | rfl | rfl | rfl | rfl
  · exact reads_of_readBlock hinner
  · exact reads_of_readVariableStatement hinner
  · exact reads_of_readEmptyStatement hinner
  · exact reads_of_readExpressionStatement hinner
  · exact reads_of_readConditional hinner
  · exact reads_of_readLoop hinner
  · exact reads_of_readReturn hinner
  · exact reads_of_readFunction hinner
termination_by (c.remaining, 1)
decreasing_by all_goals simp only [lex_iff]; omega

/-- What is read as statements are statements. -/
theorem reads_of_readStatements {c : Cursor} {reading : Reading (List Tree) (c.remaining + 1)}
    (h : c.readStatements = .ok reading) {item : Phrase} {wrapped : Tree → Tree}
    (hitem : ∀ {c tree c₁}, Reads .done .statement c [tree] c₁ →
      Reads .done item c [wrapped tree] c₁) :
    Reads .done (.many item) c (reading.value.map wrapped) reading.next := by
  rw [readStatements] at h
  by_cases hend : c.isAt .closeBrace || c.tokens.isEmpty
  · rw [if_pos hend] at h
    cases h
    apply Reads.none
    simpa using hend
  · rw [if_neg hend] at h
    obtain ⟨⟨statement, c₁, hstatement⟩, hread, h⟩ := bind_eq_ok.mp h
    obtain ⟨⟨rest, c₂, hrest⟩, hmore, h⟩ := bind_eq_ok.mp h
    cases h
    simp only [isAt_eq_sees, Bool.or_eq_true, List.isEmpty_iff, not_or, Bool.not_eq_true] at hend
    exact .more hend.1 hend.2 (hitem (reads_of_readStatement hread))
      (reads_of_readStatements hmore hitem)
termination_by (c.remaining, 2)
decreasing_by all_goals simp only [lex_iff]; omega

/-- What is read as the elements of a program are elements. -/
theorem reads_of_readSourceElements {c : Cursor} {reading : Reading Tree (c.remaining + 1)}
    (h : c.readSourceElements = .ok reading) :
    Reads .done .sourceElements c [reading.value] reading.next := by
  rw [readSourceElements] at h
  obtain ⟨statements, hread, h⟩ := bind_eq_ok.mp h
  cases h
  exact .sourceElements (reads_of_readStatements hread .sourceElement)
termination_by (c.remaining, 3)
decreasing_by all_goals simp only [lex_iff]; omega

/-- What is read behind `function` is a function. -/
theorem reads_of_readFunction {c : Cursor} {reading : Reading Tree c.remaining}
    (h : c.readFunction = .ok reading) : Reads .done .function c [reading.value] reading.next := by
  rw [readFunction] at h
  obtain ⟨⟨keyword, c₁, hkeyword⟩, hexpectKeyword, h⟩ := bind_eq_ok.mp h
  obtain ⟨⟨name, c₂, hname⟩, hreadName, h⟩ := bind_eq_ok.mp h
  obtain ⟨⟨left, c₃, hleft⟩, hexpectLeft, h⟩ := bind_eq_ok.mp h
  obtain ⟨⟨parameters, c₄, hparameters⟩, hreadParameters, h⟩ := bind_eq_ok.mp h
  obtain ⟨⟨right, c₅, hright⟩, hexpectRight, h⟩ := bind_eq_ok.mp h
  obtain ⟨⟨opening, c₆, hopening⟩, hexpectOpening, h⟩ := bind_eq_ok.mp h
  obtain ⟨⟨elements, c₇, helements⟩, hreadElements, h⟩ := bind_eq_ok.mp h
  obtain ⟨⟨closing, c₈, hclosing⟩, hexpectClosing, h⟩ := bind_eq_ok.mp h
  cases h
  obtain ⟨keywordToken, hkeywordTakes, rfl⟩ := takes_of_expect hexpectKeyword
  obtain ⟨leftToken, hleftTakes, rfl⟩ := takes_of_expectMark hexpectLeft
  obtain ⟨rightToken, hrightTakes, rfl⟩ := takes_of_expectMark hexpectRight
  obtain ⟨openingToken, hopeningTakes, rfl⟩ := takes_of_expectMark hexpectOpening
  obtain ⟨closingToken, hclosingTakes, rfl⟩ := takes_of_expectMark hexpectClosing
  exact .function hkeywordTakes (reads_of_readName hreadName) hleftTakes
    (reads_of_readParameters hreadParameters) hrightTakes hopeningTakes
    (reads_of_readSourceElements hreadElements) hclosingTakes
termination_by (c.remaining, 0)
decreasing_by all_goals simp only [lex_iff]; omega

/-- What is read in braces is a block. -/
theorem reads_of_readBlock {c : Cursor} {reading : Reading Tree c.remaining}
    (h : c.readBlock = .ok reading) : Reads .done .block c [reading.value] reading.next := by
  rw [readBlock] at h
  obtain ⟨⟨opening, c₁, hopening⟩, hexpectOpening, h⟩ := bind_eq_ok.mp h
  obtain ⟨⟨statements, c₂, hstatements⟩, hread, h⟩ := bind_eq_ok.mp h
  obtain ⟨⟨closing, c₃, hclosing⟩, hexpectClosing, h⟩ := bind_eq_ok.mp h
  cases h
  obtain ⟨openingToken, hopeningTakes, rfl⟩ := takes_of_expectMark hexpectOpening
  obtain ⟨closingToken, hclosingTakes, rfl⟩ := takes_of_expectMark hexpectClosing
  have hreads : Reads .done (.many .statement) c₁ (statements.map id) c₂ :=
    reads_of_readStatements hread id
  rw [List.map_id] at hreads
  exact .block hopeningTakes hreads hclosingTakes
termination_by (c.remaining, 0)
decreasing_by all_goals simp only [lex_iff]; omega

/-- What is read behind `if` is a conditional. -/
theorem reads_of_readConditional {c : Cursor} {reading : Reading Tree c.remaining}
    (h : c.readConditional = .ok reading) :
    Reads .done .conditional c [reading.value] reading.next := by
  rw [readConditional] at h
  obtain ⟨⟨keyword, c₁, hkeyword⟩, hexpect, h⟩ := bind_eq_ok.mp h
  obtain ⟨⟨parts, c₂, hparts⟩, hreadCondition, h⟩ := bind_eq_ok.mp h
  obtain ⟨⟨consequence, c₃, hconsequence⟩, hread, h⟩ := bind_eq_ok.mp h
  obtain ⟨keywordToken, hkeywordTakes, rfl⟩ := takes_of_expect hexpect
  obtain ⟨left, d₁, condition, d₂, right, hleft, hcondition, hright, rfl⟩ :=
    takes_of_readCondition hreadCondition
  have hreads := reads_of_readStatement hread
  dsimp only at h
  rcases c₃.take?_cases (.word .elseWord) with
    ⟨otherwise, c₄, hotherwise, htakes, htake⟩ | ⟨hsees, htake⟩
  · simp only [htake] at h
    obtain ⟨⟨alternative, c₅, halternative⟩, hreadAlternative, h⟩ := bind_eq_ok.mp h
    cases h
    exact .ifThenElse hkeywordTakes hleft hcondition hright hreads htakes
      (reads_of_readStatement hreadAlternative)
  · simp only [htake] at h
    cases h
    exact .ifThen hkeywordTakes hleft hcondition hright hreads hsees
termination_by (c.remaining, 0)
decreasing_by all_goals simp only [lex_iff]; omega

/-- What is read behind `while` is a loop. -/
theorem reads_of_readLoop {c : Cursor} {reading : Reading Tree c.remaining}
    (h : c.readLoop = .ok reading) : Reads .done .loop c [reading.value] reading.next := by
  rw [readLoop] at h
  obtain ⟨⟨keyword, c₁, hkeyword⟩, hexpect, h⟩ := bind_eq_ok.mp h
  obtain ⟨⟨parts, c₂, hparts⟩, hreadCondition, h⟩ := bind_eq_ok.mp h
  obtain ⟨⟨body, c₃, hbody⟩, hread, h⟩ := bind_eq_ok.mp h
  cases h
  obtain ⟨keywordToken, hkeywordTakes, rfl⟩ := takes_of_expect hexpect
  obtain ⟨left, d₁, condition, d₂, right, hleft, hcondition, hright, rfl⟩ :=
    takes_of_readCondition hreadCondition
  exact .loop hkeywordTakes hleft hcondition hright (reads_of_readStatement hread)
termination_by (c.remaining, 0)
decreasing_by all_goals simp only [lex_iff]; omega

end

/-- What is read as a program is one. -/
theorem reads_of_readProgram {c : Cursor} {reading : Reading Tree (c.remaining + 1)}
    (h : c.readProgram = .ok reading) : Reads .done .program c [reading.value] reading.next := by
  unfold readProgram at h
  obtain ⟨⟨elements, c₁, helements⟩, hread, h⟩ := bind_eq_ok.mp h
  dsimp only at h
  by_cases hend : c₁.tokens.isEmpty
  · rw [if_pos hend] at h
    cases h
    exact .program (reads_of_readSourceElements hread) (List.isEmpty_iff.mp hend)
  · rw [if_neg hend] at h
    cases h

end TreeScript
