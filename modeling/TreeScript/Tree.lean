import TreeScript.Token

/-!
# Syntax trees

A syntax tree is either a leaf, which holds the text of one token, or a node, which holds the
rule of the grammar it stands for and its children in order. What a rule's children are is
settled by their number and order alone. Trees are plain data: a tree need not come from a
source text, and nothing forces its spans to fit one.
-/

namespace TreeScript

/-- The rules of the grammar. -/
inductive Rule where
  | program
  | sourceElements
  | sourceElement
  | statement
  | block
  | statementList
  | variableStatement
  | variableDeclarationList
  | varModifier
  | variableDeclaration
  | emptyStatement
  | expressionStatement
  | ifStatement
  | iterationStatement
  | returnStatement
  | functionDeclaration
  | formalParameterList
  | formalParameterArg
  | functionBody
  | arrayLiteral
  | elementList
  | arrayElement
  | arguments
  | argument
  | expressionSequence
  | singleExpression
  | assignmentOperator
  | assignable
  | literal
  | numericLiteral
  | identifier
  | identifierName
  | eos
deriving DecidableEq, Repr

/-- The name of a rule in the grammar. -/
def Rule.name : Rule → String
  | program => "program"
  | sourceElements => "sourceElements"
  | sourceElement => "sourceElement"
  | statement => "statement"
  | block => "block"
  | statementList => "statementList"
  | variableStatement => "variableStatement"
  | variableDeclarationList => "variableDeclarationList"
  | varModifier => "varModifier"
  | variableDeclaration => "variableDeclaration"
  | emptyStatement => "emptyStatement_"
  | expressionStatement => "expressionStatement"
  | ifStatement => "ifStatement"
  | iterationStatement => "iterationStatement"
  | returnStatement => "returnStatement"
  | functionDeclaration => "functionDeclaration"
  | formalParameterList => "formalParameterList"
  | formalParameterArg => "formalParameterArg"
  | functionBody => "functionBody"
  | arrayLiteral => "arrayLiteral"
  | elementList => "elementList"
  | arrayElement => "arrayElement"
  | arguments => "arguments"
  | argument => "argument"
  | expressionSequence => "expressionSequence"
  | singleExpression => "singleExpression"
  | assignmentOperator => "assignmentOperator"
  | assignable => "assignable"
  | literal => "literal"
  | numericLiteral => "numericLiteral"
  | identifier => "identifier"
  | identifierName => "identifierName"
  | eos => "eos"

/-- The lexical classes of leaves. -/
inductive Category where
  | stringLiteral
  | nullLiteral
  | booleanLiteral
  | decimalLiteral
  | radixLiteral (radix : Radix)
  | identifier
  | keyword
  | punctuator
  | endOfInput
deriving DecidableEq, Repr

/-- The class of the leaf that a token becomes. -/
def Category.ofKind : Kind → Category
  | .number => decimalLiteral
  | .radixNumber radix => radixLiteral radix
  | .string => stringLiteral
  | .name => identifier
  | .word .trueWord | .word .falseWord => booleanLiteral
  | .word .nullWord => nullLiteral
  | .word _ => keyword
  | .mark _ | .invalid => punctuator

/-- A syntax tree. -/
inductive Tree where
  | node (rule : Rule) (children : List Tree) (span : Span)
  | leaf (category : Category) (text : String) (span : Span)

namespace Tree

/-- The span a tree covers. -/
def span : Tree → Span
  | node _ _ span => span
  | leaf _ _ span => span

/-- The rule of a node. -/
def rule? : Tree → Option Rule
  | node rule _ _ => some rule
  | leaf _ _ _ => none

/-- The class of a leaf. -/
def category? : Tree → Option Category
  | node _ _ _ => none
  | leaf category _ _ => some category

/-- The children in order; a leaf has none. -/
def children : Tree → List Tree
  | node _ children _ => children
  | leaf _ _ _ => []

/-- Whether a tree is a leaf. -/
def isLeaf (tree : Tree) : Bool := tree.rule?.isNone

/-- A node whose span reaches from its first to its last child.

A node without children is put at the offset `anchor`. -/
def branch (rule : Rule) (children : List Tree) (anchor : Nat) : Tree :=
  match children.head?, children.getLast? with
  | some first, some last => node rule children (first.span.join last.span)
  | _, _ => node rule children (Span.point anchor)

mutual

/-- The texts of all leaves joined, apart from the end of the input. -/
def joinedText : Tree → String
  | leaf .endOfInput _ _ => ""
  | leaf _ text _ => text
  | node _ children _ => joinedTexts children

/-- The joined leaf texts of several trees. -/
def joinedTexts : List Tree → String
  | [] => ""
  | tree :: rest => joinedText tree ++ joinedTexts rest

end

/-- The text of a tree: a leaf's own text, or the texts below a node with nothing in between. -/
def text : Tree → String
  | leaf _ text _ => text
  | node _ children _ => joinedTexts children

mutual

/-- A tree on one line, with each node in parentheses after its rule's name. -/
def render : Tree → String
  | leaf .endOfInput _ _ => "<EOF>"
  | leaf _ text _ => text
  | node rule [] _ => rule.name
  | node rule children _ => "(" ++ rule.name ++ renderAll children ++ ")"

/-- Several trees on one line, each after a space. -/
def renderAll : List Tree → String
  | [] => ""
  | tree :: rest => " " ++ render tree ++ renderAll rest

end

end Tree

end TreeScript
