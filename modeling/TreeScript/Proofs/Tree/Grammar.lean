import TreeScript.Proofs.Token.Spelling
import TreeScript.Tree.Statement

/-!
# The grammar of trees

`Produces` says which trees the grammar allows, one production at a time and without saying how a
text is read: the number, the order and the sort of the children of every rule, the strength that
each operand must have, and which conditional an `else` belongs to. Spans play no part in it. A
phrase stands for neighbouring children, so it produces a list of trees; most phrases produce one.

The productions cover every tree: a tree of the grammar has been built from them down to its
leaves, and every leaf has a text that is read as one token of its class.
-/

namespace TreeScript

/-! ## Tokens -/

/-- A leaf for a valid token whose kind passes a test. -/
inductive Tree.IsToken (test : Kind → Bool) : Tree → Prop
  | leaf {kind : Kind} {text : String} (hkind : test kind = true) (hvalid : kind ≠ .invalid)
      (htext : Spells text kind) (span : Span) : IsToken test (.leaf (.ofKind kind) text span)

namespace Kind

/-- The reserved words. -/
def isWord : Kind → Bool
  | word _ => true
  | _ => false

/-- The signs that combine an assignment with an operator. -/
def isCompound (kind : Kind) : Bool := kind.isAssignment && kind != .mark .assign

/-- The tokens that are a literal without being a number. -/
def isConstant : Kind → Bool
  | string => true
  | word w => w.isLiteral
  | _ => false

end Kind

/-! ## Nodes -/

namespace Tree

/-- The span of a node with the given children. A node without children is put at an offset. -/
def reach (children : List Tree) (anchor : Nat) : Span :=
  match children.head?, children.getLast? with
  | some first, some last => first.span.join last.span
  | _, _ => Span.point anchor

/-- A branch is a node over its children. -/
theorem branch_eq (rule : Rule) (children : List Tree) (anchor : Nat) :
    branch rule children anchor = .node rule children (reach children anchor) := by
  unfold branch reach
  cases children.head? with
  | none => rfl
  | some first => cases children.getLast? <;> rfl

/-- A wrapper is a node over its child. -/
theorem wrap_eq (rule : Rule) (child : Tree) :
    wrap rule child = .node rule [child] (reach [child] child.span.start) :=
  branch_eq rule [child] child.span.start

/-- An expression is a node over its parts. -/
theorem expression_eq (parts : List Tree) :
    expression parts = .node .singleExpression parts (reach parts 0) :=
  branch_eq .singleExpression parts 0

end Tree

/-! ## Phrases -/

/-- How strongly the outermost operation of an expression binds, weakest first. -/
inductive Strength where
  | assignment
  | level (level : Level)
  | power
  /-- A sign in front of an operand. -/
  | signed
  /-- A step sign behind an operand. -/
  | stepped
  /-- A member, an index or arguments behind an operand. -/
  | chain
  | primary
deriving DecidableEq, Repr

/-- The weakest strength that the right operand of an operator on a level may have. -/
def Level.operand (level : Level) : Strength :=
  match level.tighter? with
  | some tighter => .level tighter
  | none => .power

/-- The next stronger strength, if there is one. -/
def Strength.tighter? : Strength → Option Strength
  | assignment => some (.level .disjunction)
  | level l => some l.operand
  | power => some signed
  | signed => some stepped
  | stepped => some chain
  | chain => some primary
  | primary => none

/-- What the grammar has productions for. -/
inductive Phrase where
  /-- Items of a phrase with commas between them, at least one. -/
  | list (item : Phrase)
  /-- Any number of items of a phrase. -/
  | many (item : Phrase)
  /-- A phrase or nothing. -/
  | optional (item : Phrase)
  | identifier
  | memberName
  | assignable
  /-- An expression that binds at least so strongly. -/
  | expression (strength : Strength)
  | sequence
  | argument
  | arguments
  /-- What stands between the brackets of a list. -/
  | elements
  | declarator
  | parameter
  | parameterList
  /-- The end mark of a statement. -/
  | ending
  | variableStatement
  | emptyStatement
  | expressionStatement
  | returnStatement
  | function
  | block
  | conditional
  | loop
  | statement
  | sourceElement
  | sourceElements
  | program
deriving DecidableEq, Repr

/-- The forms of statements. -/
def Phrase.statementForms : List Phrase :=
  [.block, .variableStatement, .emptyStatement, .expressionStatement, .conditional, .loop,
    .returnStatement, .function]

/-- Whether a statement ends in a conditional without an `else`, so that an `else` after it would
belong to that conditional. -/
def Tree.endsOpen : Tree → Bool
  | node .statement [inner] _ => inner.endsOpen
  | node .ifStatement [_, _, _, _, _] _ => true
  | node .ifStatement [_, _, _, _, _, _, alternative] _ => alternative.endsOpen
  | node .iterationStatement [_, _, _, _, body] _ => body.endsOpen
  | _ => false

/-! ## Productions -/

/-- The trees that a phrase stands for. Whether the end mark of a statement may be left out is
settled by `omits`. -/
inductive Produces (omits : Bool) : Phrase → List Tree → Prop
  | oneItem {item : Phrase} {tree : Tree} :
      Produces omits item [tree] → Produces omits (.list item) [tree]
  | moreItems {item : Phrase} {first comma : Tree} {rest : List Tree} :
      Produces omits item [first] → comma.IsToken (· == .mark .comma) →
      Produces omits (.list item) rest → Produces omits (.list item) (first :: comma :: rest)
  | none {item : Phrase} : Produces omits (.many item) []
  | more {item : Phrase} {first : Tree} {rest : List Tree} :
      Produces omits item [first] → Produces omits (.many item) rest →
      Produces omits (.many item) (first :: rest)
  | absent {item : Phrase} : Produces omits (.optional item) []
  | present {item : Phrase} {tree : Tree} :
      Produces omits item [tree] → Produces omits (.optional item) [tree]
  -- Names
  | identifier {name : Tree} {span : Span} :
      name.IsToken (· == .name) → Produces omits .identifier [.node .identifier [name] span]
  | memberName {name : Tree} {span : Span} :
      Produces omits .identifier [name] →
      Produces omits .memberName [.node .identifierName [name] span]
  | memberWord {word : Tree} {span : Span} :
      word.IsToken Kind.isWord → Produces omits .memberName [.node .identifierName [word] span]
  | assignable {name : Tree} {span : Span} :
      Produces omits .identifier [name] →
      Produces omits .assignable [.node .assignable [name] span]
  -- Expressions, from the weakest to the strongest
  | tighter {strength tighter : Strength} {tree : Tree} :
      strength.tighter? = some tighter → Produces omits (.expression tighter) [tree] →
      Produces omits (.expression strength) [tree]
  | assignment {target sign value : Tree} {span : Span} :
      Produces omits (.expression (.level .disjunction)) [target] →
      sign.IsToken (· == .mark .assign) → Produces omits (.expression .assignment) [value] →
      Produces omits (.expression .assignment) [.node .singleExpression [target, sign, value] span]
  | compound {target sign value : Tree} {signSpan span : Span} :
      Produces omits (.expression (.level .disjunction)) [target] →
      sign.IsToken Kind.isCompound → Produces omits (.expression .assignment) [value] →
      Produces omits (.expression .assignment)
        [.node .singleExpression [target, .node .assignmentOperator [sign] signSpan, value] span]
  | binary {level : Level} {left sign right : Tree} {span : Span} :
      Produces omits (.expression (.level level)) [left] → sign.IsToken level.accepts →
      Produces omits (.expression level.operand) [right] →
      Produces omits (.expression (.level level)) [.node .singleExpression [left, sign, right] span]
  | power {base sign exponent : Tree} {span : Span} :
      Produces omits (.expression .signed) [base] → sign.IsToken (· == .mark .power) →
      Produces omits (.expression .power) [exponent] →
      Produces omits (.expression .power) [.node .singleExpression [base, sign, exponent] span]
  | signed {sign operand : Tree} {span : Span} :
      sign.IsToken Kind.isPrefixSign → Produces omits (.expression .signed) [operand] →
      Produces omits (.expression .signed) [.node .singleExpression [sign, operand] span]
  | stepped {operand sign : Tree} {span : Span} :
      Produces omits (.expression .chain) [operand] → sign.IsToken Kind.isStep →
      Produces omits (.expression .stepped) [.node .singleExpression [operand, sign] span]
  | member {subject dot name : Tree} {span : Span} :
      Produces omits (.expression .chain) [subject] → dot.IsToken (· == .mark .dot) →
      Produces omits .memberName [name] →
      Produces omits (.expression .chain) [.node .singleExpression [subject, dot, name] span]
  | index {subject left index right : Tree} {span : Span} :
      Produces omits (.expression .chain) [subject] → left.IsToken (· == .mark .openBracket) →
      Produces omits .sequence [index] → right.IsToken (· == .mark .closeBracket) →
      Produces omits (.expression .chain)
        [.node .singleExpression [subject, left, index, right] span]
  | call {subject arguments : Tree} {span : Span} :
      Produces omits (.expression .chain) [subject] → Produces omits .arguments [arguments] →
      Produces omits (.expression .chain) [.node .singleExpression [subject, arguments] span]
  | name {name : Tree} {span : Span} :
      Produces omits .identifier [name] →
      Produces omits (.expression .primary) [.node .singleExpression [name] span]
  | number {number : Tree} {numberSpan literalSpan span : Span} :
      number.IsToken Kind.isNumeric →
      Produces omits (.expression .primary)
        [.node .singleExpression
          [.node .literal [.node .numericLiteral [number] numberSpan] literalSpan] span]
  | constant {constant : Tree} {literalSpan span : Span} :
      constant.IsToken Kind.isConstant →
      Produces omits (.expression .primary)
        [.node .singleExpression [.node .literal [constant] literalSpan] span]
  | array {left right : Tree} {elements : List Tree} {listSpan arraySpan span : Span} :
      left.IsToken (· == .mark .openBracket) → Produces omits .elements elements →
      right.IsToken (· == .mark .closeBracket) →
      Produces omits (.expression .primary)
        [.node .singleExpression
          [.node .arrayLiteral [left, .node .elementList elements listSpan, right] arraySpan] span]
  | parenthesized {left sequence right : Tree} {span : Span} :
      left.IsToken (· == .mark .openParen) → Produces omits .sequence [sequence] →
      right.IsToken (· == .mark .closeParen) →
      Produces omits (.expression .primary) [.node .singleExpression [left, sequence, right] span]
  -- Parts of expressions
  | sequence {items : List Tree} {span : Span} :
      Produces omits (.list (.expression .assignment)) items →
      Produces omits .sequence [.node .expressionSequence items span]
  | argument {value : Tree} {span : Span} :
      Produces omits (.expression .assignment) [value] →
      Produces omits .argument [.node .argument [value] span]
  | noArguments {left right : Tree} {span : Span} :
      left.IsToken (· == .mark .openParen) → right.IsToken (· == .mark .closeParen) →
      Produces omits .arguments [.node .arguments [left, right] span]
  | arguments {left right : Tree} {items : List Tree} {span : Span} :
      left.IsToken (· == .mark .openParen) → Produces omits (.list .argument) items →
      right.IsToken (· == .mark .closeParen) →
      Produces omits .arguments [.node .arguments (left :: items ++ [right]) span]
  -- Commas may follow one another, elements may not
  | noElements : Produces omits .elements []
  | skippedElement {comma : Tree} {rest : List Tree} :
      comma.IsToken (· == .mark .comma) → Produces omits .elements rest →
      Produces omits .elements (comma :: rest)
  | lastElement {value : Tree} {span : Span} :
      Produces omits (.expression .assignment) [value] →
      Produces omits .elements [.node .arrayElement [value] span]
  | element {value comma : Tree} {rest : List Tree} {span : Span} :
      Produces omits (.expression .assignment) [value] → comma.IsToken (· == .mark .comma) →
      Produces omits .elements rest →
      Produces omits .elements (.node .arrayElement [value] span :: comma :: rest)
  -- Statements
  | endMark {semicolon : Tree} {span : Span} :
      semicolon.IsToken (· == .mark .semicolon) →
      Produces omits .ending [.node .eos [semicolon] span]
  | noEndMark {span : Span} : omits = true → Produces omits .ending [.node .eos [] span]
  | bareDeclarator {name : Tree} {span : Span} :
      Produces omits .assignable [name] →
      Produces omits .declarator [.node .variableDeclaration [name] span]
  | declarator {name sign value : Tree} {span : Span} :
      Produces omits .assignable [name] → sign.IsToken (· == .mark .assign) →
      Produces omits (.expression .assignment) [value] →
      Produces omits .declarator [.node .variableDeclaration [name, sign, value] span]
  | variableStatement {modifier ending : Tree} {declarators : List Tree}
      {modifierSpan listSpan span : Span} :
      modifier.IsToken Kind.isDeclarer → Produces omits (.list .declarator) declarators →
      Produces omits .ending [ending] →
      Produces omits .variableStatement
        [.node .variableStatement
          [.node .variableDeclarationList
            (.node .varModifier [modifier] modifierSpan :: declarators) listSpan, ending] span]
  | emptyStatement {semicolon : Tree} {span : Span} :
      semicolon.IsToken (· == .mark .semicolon) →
      Produces omits .emptyStatement [.node .emptyStatement [semicolon] span]
  | expressionStatement {sequence ending : Tree} {span : Span} :
      Produces omits .sequence [sequence] → Produces omits .ending [ending] →
      Produces omits .expressionStatement [.node .expressionStatement [sequence, ending] span]
  | returnStatement {keyword ending : Tree} {value : List Tree} {span : Span} :
      keyword.IsToken (· == .word .returnWord) → Produces omits (.optional .sequence) value →
      Produces omits .ending [ending] →
      Produces omits .returnStatement [.node .returnStatement (keyword :: value ++ [ending]) span]
  | parameter {name : Tree} {span : Span} :
      Produces omits .assignable [name] →
      Produces omits .parameter [.node .formalParameterArg [name] span]
  | parameterList {parameters : List Tree} {span : Span} :
      Produces omits (.list .parameter) parameters →
      Produces omits .parameterList [.node .formalParameterList parameters span]
  | function {keyword name left right opening elements closing : Tree} {parameters : List Tree}
      {bodySpan span : Span} :
      keyword.IsToken (· == .word .functionWord) → Produces omits .identifier [name] →
      left.IsToken (· == .mark .openParen) →
      Produces omits (.optional .parameterList) parameters →
      right.IsToken (· == .mark .closeParen) → opening.IsToken (· == .mark .openBrace) →
      Produces omits .sourceElements [elements] → closing.IsToken (· == .mark .closeBrace) →
      Produces omits .function
        [.node .functionDeclaration
          ([keyword, name, left] ++ parameters ++
            [right, .node .functionBody [opening, elements, closing] bodySpan]) span]
  | block {opening closing : Tree} {statements : List Tree} {listSpan span : Span} :
      opening.IsToken (· == .mark .openBrace) → Produces omits (.many .statement) statements →
      closing.IsToken (· == .mark .closeBrace) →
      Produces omits .block
        [.node .block [opening, .node .statementList statements listSpan, closing] span]
  | ifThen {keyword left condition right consequence : Tree} {span : Span} :
      keyword.IsToken (· == .word .ifWord) → left.IsToken (· == .mark .openParen) →
      Produces omits .sequence [condition] → right.IsToken (· == .mark .closeParen) →
      Produces omits .statement [consequence] →
      Produces omits .conditional
        [.node .ifStatement [keyword, left, condition, right, consequence] span]
  | ifThenElse {keyword left condition right consequence otherwise alternative : Tree}
      {span : Span} :
      keyword.IsToken (· == .word .ifWord) → left.IsToken (· == .mark .openParen) →
      Produces omits .sequence [condition] → right.IsToken (· == .mark .closeParen) →
      Produces omits .statement [consequence] → consequence.endsOpen = false →
      otherwise.IsToken (· == .word .elseWord) → Produces omits .statement [alternative] →
      Produces omits .conditional
        [.node .ifStatement
          [keyword, left, condition, right, consequence, otherwise, alternative] span]
  | loop {keyword left condition right body : Tree} {span : Span} :
      keyword.IsToken (· == .word .whileWord) → left.IsToken (· == .mark .openParen) →
      Produces omits .sequence [condition] → right.IsToken (· == .mark .closeParen) →
      Produces omits .statement [body] →
      Produces omits .loop [.node .iterationStatement [keyword, left, condition, right, body] span]
  | statement {form : Phrase} {tree : Tree} {span : Span} :
      form ∈ Phrase.statementForms → Produces omits form [tree] →
      Produces omits .statement [.node .statement [tree] span]
  | sourceElement {statement : Tree} {span : Span} :
      Produces omits .statement [statement] →
      Produces omits .sourceElement [.node .sourceElement [statement] span]
  | sourceElements {elements : List Tree} {span : Span} :
      Produces omits (.many .sourceElement) elements →
      Produces omits .sourceElements [.node .sourceElements elements span]
  | program {elements : Tree} {endSpan span : Span} :
      Produces omits .sourceElements [elements] →
      Produces omits .program [.node .program [elements, .leaf .endOfInput "" endSpan] span]

end TreeScript
