import TreeScript.Lowering.Target
import TreeScript.Proofs.Decimal.Finite
import TreeScript.Proofs.Decimal.Numerals
import TreeScript.Proofs.Tree.Layout

/-!
# The surface syntax

Scripts as a reader of the language sees them: typed forms instead of rules, children and
punctuation. Three things are said about each form by recursion on it, independently of one
another: the tree it is written as, the operations it means, and what in it cannot be lowered.

Parentheses, end marks and the choice of quotes are part of a script, because the tree shows them.
Layout is not: trees are written without spans.
-/

namespace TreeScript.Surface

/-! ## Forms -/

/-- The quotes that a text may stand between. -/
inductive Quote where
  | single
  | double
deriving DecidableEq, Repr

/-- The literals. A number in decimal notation is given by its parts. -/
inductive Constant where
  | number (written : WrittenNumber)
  | radixNumber (radix : Radix) (text : String)
  | quoted (quote : Quote) (content : String)
  | nothing
  | truth (value : Bool)

/-- The name of a member may be a reserved word. -/
inductive MemberName where
  | name (text : String)
  | word (word : Word)
deriving DecidableEq, Repr

/-- The step signs. -/
inductive Step where
  | up
  | down
deriving DecidableEq, Repr

/-- The signs between two operands. Five of them have no operator. -/
inductive InfixSign where
  | known (operator : BinaryOperator)
  | identical
  | notIdentical
  | shiftLeft
  | shiftRight
  | shiftRightZero
deriving DecidableEq, Repr

/-- The signs that combine an assignment with an operator. Six of them have no operator. -/
inductive CompoundSign where
  | add
  | sub
  | mul
  | div
  | mod
  | pow
  | shiftLeft
  | shiftRight
  | shiftRightZero
  | bitAnd
  | bitOr
  | bitXor
deriving DecidableEq, Repr

mutual

/-- Expressions. -/
inductive Expression where
  | name (text : String)
  | constant (constant : Constant)
  | list (elements : Elements)
  | parenthesized (inner : Sequence)
  | member (object : Expression) (name : MemberName)
  | index (object : Expression) (position : Sequence)
  | call (callee : Expression) (arguments : List Expression)
  | stepBefore (step : Step) (operand : Expression)
  | stepAfter (operand : Expression) (step : Step)
  | unary (operator : UnaryOperator) (operand : Expression)
  | binary (left : Expression) (sign : InfixSign) (right : Expression)
  | assign (target value : Expression)
  | combine (target : Expression) (sign : CompoundSign) (value : Expression)

/-- One expression, or several with commas between them. -/
inductive Sequence where
  | mk (first : Expression) (rest : List Expression)

/-- What stands between the brackets of a list. Commas may follow one another, expressions may
not. -/
inductive Elements where
  | none
  | skip (rest : Elements)
  | last (value : Expression)
  | next (value : Expression) (rest : Elements)

end

/-- The words that begin a declaration of variables. -/
inductive Declarer where
  | varWord
  | letWord
  | constWord
deriving DecidableEq, Repr

/-- A variable and its first value. -/
structure Declarator where
  name : String
  initial : Option Expression

/-- Whether the end mark of a statement is there or left out. -/
inductive Ending where
  | mark
  | omitted
deriving DecidableEq, Repr

/-- Statements. -/
inductive Statement where
  | block (body : List Statement)
  | declaration (declarer : Declarer) (first : Declarator) (rest : List Declarator)
      (ending : Ending)
  | empty
  | expression (sequence : Sequence) (ending : Ending)
  | ifThen (condition : Sequence) (consequence : Statement)
  | ifThenElse (condition : Sequence) (consequence alternative : Statement)
  | loop (condition : Sequence) (body : Statement)
  | giveBack (value : Option Sequence) (ending : Ending)
  | function (name : String) (parameters : List String) (body : List Statement)

/-- A whole script. -/
structure Script where
  body : List Statement

/-! ## Trees -/

/-- A node without a place. -/
def node (rule : Rule) (children : List Tree) : Tree := .node rule children (Span.point 0)

/-- The leaf of a token without a place. -/
def token (kind : Kind) (text : String) : Tree := .leaf (.ofKind kind) text (Span.point 0)

/-- The leaf of a punctuator. -/
def mark (mark : Mark) : Tree := token (.mark mark) mark.spelling

/-- The leaf of a reserved word. -/
def word (word : Word) : Tree := token (.word word) word.spelling

/-- Trees with commas between them. -/
def separated (trees : List Tree) : List Tree := trees.intersperse (mark .comma)

/-- A name on its own. -/
def identifier (text : String) : Tree := node .identifier [token .name text]

/-- A name that is bound. -/
def assignable (text : String) : Tree := node .assignable [identifier text]

namespace Quote

def char : Quote → Char
  | single => '\''
  | double => '"'

/-- A text between quotes. -/
def enclose (quote : Quote) (content : String) : String :=
  String.ofList (quote.char :: content.toList ++ [quote.char])

end Quote

namespace Constant

def tree : Constant → Tree
  | number written => node .numericLiteral [token .number written.text]
  | radixNumber radix text => node .numericLiteral [token (.radixNumber radix) text]
  | quoted quote content => token .string (quote.enclose content)
  | nothing => word .nullWord
  | truth true => word .trueWord
  | truth false => word .falseWord

end Constant

namespace MemberName

/-- The name as it is written. -/
def text : MemberName → String
  | .name text => text
  | .word reserved => reserved.spelling

def tree : MemberName → Tree
  | .name text => node .identifierName [identifier text]
  | .word reserved => node .identifierName [Surface.word reserved]

end MemberName

namespace Step

def sign : Step → Mark
  | up => .increment
  | down => .decrement

def operator : Step → BinaryOperator
  | up => .add
  | down => .sub

end Step

/-- The sign of an operator in front of its operand. -/
def unarySign : UnaryOperator → Mark
  | .negate => .minus
  | .plus => .plus
  | .invert => .bang
  | .bitInvert => .tilde

/-- The sign of an operator between its operands. -/
def binarySign : BinaryOperator → Mark
  | .add => .plus
  | .sub => .minus
  | .mul => .star
  | .div => .slash
  | .mod => .percent
  | .pow => .power
  | .equal => .equal
  | .notEqual => .notEqual
  | .less => .less
  | .greater => .greater
  | .lessEqual => .lessEqual
  | .greaterEqual => .greaterEqual
  | .both => .bothAnd
  | .either => .eitherOr
  | .bitOr => .bitOr
  | .bitAnd => .bitAnd
  | .bitXor => .bitXor

namespace InfixSign

def sign : InfixSign → Mark
  | known operator => binarySign operator
  | identical => .identical
  | notIdentical => .notIdentical
  | shiftLeft => .shiftLeft
  | shiftRight => .shiftRight
  | shiftRightZero => .shiftRightZero

def operator? : InfixSign → Option BinaryOperator
  | known operator => some operator
  | _ => none

end InfixSign

namespace CompoundSign

def sign : CompoundSign → Mark
  | add => .addAssign
  | sub => .subAssign
  | mul => .mulAssign
  | div => .divAssign
  | mod => .modAssign
  | pow => .powerAssign
  | shiftLeft => .shiftLeftAssign
  | shiftRight => .shiftRightAssign
  | shiftRightZero => .shiftRightZeroAssign
  | bitAnd => .bitAndAssign
  | bitOr => .bitOrAssign
  | bitXor => .bitXorAssign

def operator? : CompoundSign → Option BinaryOperator
  | add => some .add
  | sub => some .sub
  | mul => some .mul
  | div => some .div
  | mod => some .mod
  | pow => some .pow
  | _ => none

end CompoundSign

mutual

def Expression.tree : Expression → Tree
  | .name text => node .singleExpression [identifier text]
  | .constant constant => node .singleExpression [node .literal [constant.tree]]
  | .list elements =>
    node .singleExpression [node .arrayLiteral
      [mark .openBracket, node .elementList elements.trees, mark .closeBracket]]
  | .parenthesized inner =>
    node .singleExpression [mark .openParen, inner.tree, mark .closeParen]
  | .member object name => node .singleExpression [object.tree, mark .dot, name.tree]
  | .index object position =>
    node .singleExpression [object.tree, mark .openBracket, position.tree, mark .closeBracket]
  | .call callee arguments =>
    node .singleExpression [callee.tree, node .arguments
      (mark .openParen :: separated ((allTrees arguments).map fun tree => node .argument [tree]) ++
        [mark .closeParen])]
  | .stepBefore step operand => node .singleExpression [mark step.sign, operand.tree]
  | .stepAfter operand step => node .singleExpression [operand.tree, mark step.sign]
  | .unary operator operand =>
    node .singleExpression [mark (unarySign operator), operand.tree]
  | .binary left sign right =>
    node .singleExpression [left.tree, mark sign.sign, right.tree]
  | .assign target value => node .singleExpression [target.tree, mark .assign, value.tree]
  | .combine target sign value =>
    node .singleExpression [target.tree, node .assignmentOperator [mark sign.sign], value.tree]

def Sequence.tree : Sequence → Tree
  | .mk first rest => node .expressionSequence (separated (first.tree :: allTrees rest))

def Elements.trees : Elements → List Tree
  | .none => []
  | .skip rest => mark .comma :: rest.trees
  | .last value => [node .arrayElement [value.tree]]
  | .next value rest => node .arrayElement [value.tree] :: mark .comma :: rest.trees

def allTrees : List Expression → List Tree
  | [] => []
  | expression :: rest => expression.tree :: allTrees rest

end

/-- The word that begins a declaration. -/
def Declarer.word : Declarer → Word
  | varWord => .varWord
  | letWord => .letWord
  | constWord => .constWord

def Declarator.tree (declarator : Declarator) : Tree :=
  match declarator.initial with
  | none => node .variableDeclaration [assignable declarator.name]
  | some value =>
    node .variableDeclaration [assignable declarator.name, mark .assign, value.tree]

def Ending.tree : Ending → Tree
  | mark => node .eos [Surface.mark .semicolon]
  | omitted => node .eos []

/-- The parameters of a function, if it has any. -/
def parameterTrees (parameters : List String) : List Tree :=
  if parameters.isEmpty then []
  else
    [node .formalParameterList
      (separated (parameters.map fun name => node .formalParameterArg [assignable name]))]

mutual

def Statement.tree : Statement → Tree
  | .block body =>
    node .statement [node .block
      [mark .openBrace, node .statementList (statementTrees body), mark .closeBrace]]
  | .declaration declarer first rest ending =>
    node .statement [node .variableStatement
      [node .variableDeclarationList (node .varModifier [word declarer.word] ::
        separated (first.tree :: rest.map Declarator.tree)), ending.tree]]
  | .empty => node .statement [node .emptyStatement [mark .semicolon]]
  | .expression sequence ending =>
    node .statement [node .expressionStatement [sequence.tree, ending.tree]]
  | .ifThen condition consequence =>
    node .statement [node .ifStatement
      [word .ifWord, mark .openParen, condition.tree, mark .closeParen, consequence.tree]]
  | .ifThenElse condition consequence alternative =>
    node .statement [node .ifStatement
      [word .ifWord, mark .openParen, condition.tree, mark .closeParen, consequence.tree,
        word .elseWord, alternative.tree]]
  | .loop condition body =>
    node .statement [node .iterationStatement
      [word .whileWord, mark .openParen, condition.tree, mark .closeParen, body.tree]]
  | .giveBack value ending =>
    node .statement [node .returnStatement
      (word .returnWord :: (value.map Sequence.tree).toList ++ [ending.tree])]
  | .function name parameters body =>
    node .statement [node .functionDeclaration
      ([word .functionWord, identifier name, mark .openParen] ++ parameterTrees parameters ++
        [mark .closeParen, node .functionBody
          [mark .openBrace, node .sourceElements (elementTrees body), mark .closeBrace]])]

def statementTrees : List Statement → List Tree
  | [] => []
  | statement :: rest => statement.tree :: statementTrees rest

/-- Statements that stand at the top of a script or function. -/
def elementTrees : List Statement → List Tree
  | [] => []
  | statement :: rest => node .sourceElement [statement.tree] :: elementTrees rest

end

def Script.tree (script : Script) : Tree :=
  node .program
    [node .sourceElements (elementTrees script.body), .leaf .endOfInput "" (Span.point 0)]

/-! ## Operations -/

/-- The floating-point literal of a decimal: the nearest number of single width if it is finite,
and else the nearest of double width if that is finite. -/
def floating? (decimal : Decimal) : Option Literal :=
  if (Decoded.ofFloat32 decimal.toFloat32).IsFinite then some (.float decimal.toFloat32)
  else if (Decoded.ofFloat decimal.toFloat).IsFinite then some (.double decimal.toFloat)
  else none

/-- The literal of a number. Digits alone are an integer if 32 bits hold their value, or else if 64
bits do. Greater numbers are floating-point numbers, and so are all with a point or an exponent. -/
def numberLiteral? (number : WrittenNumber) : Option Literal :=
  let value := number.whole.value
  if number.IsWhole ∧ value < 2 ^ 31 then some (.int (.ofNat value))
  else if number.IsWhole ∧ value < 2 ^ 63 then some (.long (.ofNat value))
  else floating? (number.decimal .absent)

namespace Constant

/-- The constant that a literal stands for. -/
def value? : Constant → Option Literal
  | number written => numberLiteral? written
  | radixNumber _ _ => none
  | quoted _ content => some (.string content)
  | nothing => some .null
  | truth value => some (.bool value)

end Constant

/-- The operation that reads a place. -/
def fetch : Target → Operation
  | .named name => .getVariable name
  | .member object name => .getMember object name
  | .index object position => .getIndex object position

/-- The operation that writes a place. Only variables have a policy. -/
def store (place : Target) (value : Operation) (policy : Policy) : Operation :=
  match place with
  | .named name => .setVariable name value policy false
  | .member object name => .setMember object name value
  | .index object position => .setIndex object position value

mutual

/-- The operation that computes an expression. -/
def Expression.lower? : Expression → Option Operation
  | .name text => some (.getVariable text)
  | .constant constant => do
    return .literal (← constant.value?)
  | .list elements => do
    return .createList (← elements.lower?)
  | .parenthesized inner => inner.lower?
  | .member object name => do
    return .getMember (← object.lower?) name.text
  | .index object position => do
    let object ← object.lower?
    let position ← position.lower?
    return .getIndex object position
  | .call callee arguments => do
    let callee ← callee.lower?
    let arguments ← lowerAll? arguments
    return .call callee arguments
  | .stepBefore step operand => do
    let place ← operand.place?
    return store place (.binary step.operator (fetch place) (.literal (.int 1))) .mustExist
  | .stepAfter operand step => do
    let place ← operand.place?
    return .stackPop (store place
      (.binary step.operator (.stackPush (fetch place)) (.literal (.int 1))) .mustExist)
  | .unary operator operand => do
    return .unary operator (← operand.lower?)
  | .binary left sign right => do
    let operator ← sign.operator?
    let left ← left.lower?
    let right ← right.lower?
    return .binary operator left right
  | .assign target value => do
    let place ← target.place?
    let value ← value.lower?
    return store place value .unconstrained
  | .combine target sign value => do
    let operator ← sign.operator?
    let place ← target.place?
    let value ← value.lower?
    return store place (.binary operator (fetch place) value) .mustExist

/-- The place that an expression denotes. -/
def Expression.place? : Expression → Option Target
  | .name text => some (.named text)
  | .member object name => do
    return .member (← object.lower?) name.text
  | .index object position => do
    let object ← object.lower?
    let position ← position.lower?
    return .index object position
  | _ => none

/-- A sequence has a value only if it is one expression. -/
def Sequence.lower? : Sequence → Option Operation
  | .mk first [] => first.lower?
  | .mk _ (_ :: _) => none

/-- Commas that follow one another skip nothing. -/
def Elements.lower? : Elements → Option (List Operation)
  | .none => some []
  | .skip rest => rest.lower?
  | .last value => do
    return [← value.lower?]
  | .next value rest => do
    let first ← value.lower?
    let others ← rest.lower?
    return first :: others

def lowerAll? : List Expression → Option (List Operation)
  | [] => some []
  | expression :: rest => do
    let first ← expression.lower?
    let others ← lowerAll? rest
    return first :: others

end

/-- The first value of a variable, which is null if none is given. -/
def Declarator.value? (declarator : Declarator) : Option Operation :=
  match declarator.initial with
  | none => some (.literal .null)
  | some value => value.lower?

/-- Where a statement stands: among others, or as a branch of a conditional. -/
inductive Position where
  | among
  | branch
deriving DecidableEq, Repr

/-- The statements of a block that is a branch count as the branch's own. -/
def Position.enclose : Position → List Operation → List Operation
  | among, operations => [.block operations]
  | branch, operations => operations

mutual

/-- The operations that a statement appends. -/
def Statement.lower? (position : Position) : Statement → Option (List Operation)
  | .block body => do
    return position.enclose (← lowerStatements? body)
  | .declaration .varWord first [] _ => do
    return [.setVariable first.name (← first.value?) .cannotExist true]
  | .declaration _ _ _ _ => none
  | .empty => some []
  | .expression sequence _ => do
    return [← sequence.lower?]
  | .ifThen condition consequence => do
    let test ← condition.lower?
    let thenBody ← consequence.lower? .branch
    return [.ifThen test thenBody]
  | .ifThenElse condition consequence alternative => do
    let test ← condition.lower?
    let thenBody ← consequence.lower? .branch
    let elseBody ← alternative.lower? .branch
    return [.ifThenElse test thenBody elseBody]
  | .loop _ _ => none
  | .giveBack none _ => some [.giveBack (.literal .null)]
  | .giveBack (some value) _ => do
    return [.giveBack (← value.lower?)]
  | .function name parameters body =>
    if parameters.Nodup then do
      return [.setVariable name (.function name parameters (← lowerStatements? body))
        .unconstrained true]
    else none

def lowerStatements? : List Statement → Option (List Operation)
  | [] => some []
  | statement :: rest => do
    let first ← statement.lower? .among
    let others ← lowerStatements? rest
    return first ++ others

end

/-- The program that a script means. -/
def Script.lower? (script : Script) : Option Program := do
  return ⟨← lowerStatements? script.body⟩

/-! ## Obstacles -/

/-- What cannot be lowered. -/
inductive Obstacle where
  | declarationWord
  | severalDeclarators
  | loop
  | commaSequence
  | operator
  | compoundOperator
  | target
  | duplicateParameter
  | radixLiteral
  | infiniteLiteral
deriving DecidableEq, Repr

/-- An obstacle if a test fails. -/
def demand (passes : Bool) (obstacle : Obstacle) : List Obstacle :=
  if passes then [] else [obstacle]

namespace Constant

def obstacles : Constant → List Obstacle
  | number written =>
    demand (Decoded.ofFloat (written.decimal .absent).toFloat).IsFinite .infiniteLiteral
  | radixNumber _ _ => [.radixLiteral]
  | _ => []

end Constant

/-- The expressions that denote a place: names, members and indices. -/
def Expression.isPlace : Expression → Bool
  | .name _ | .member _ _ | .index _ _ => true
  | _ => false

mutual

def Expression.obstacles : Expression → List Obstacle
  | .name _ => []
  | .constant constant => constant.obstacles
  | .list elements => elements.obstacles
  | .parenthesized inner => inner.obstacles
  | .member object _ => object.obstacles
  | .index object position => object.obstacles ++ position.obstacles
  | .call callee arguments => callee.obstacles ++ allObstacles arguments
  | .stepBefore _ operand => demand operand.isPlace .target ++ operand.obstacles
  | .stepAfter operand _ => demand operand.isPlace .target ++ operand.obstacles
  | .unary _ operand => operand.obstacles
  | .binary left sign right =>
    demand sign.operator?.isSome .operator ++ (left.obstacles ++ right.obstacles)
  | .assign target value =>
    demand target.isPlace .target ++ target.obstacles ++ value.obstacles
  | .combine target sign value =>
    demand sign.operator?.isSome .compoundOperator ++
      (demand target.isPlace .target ++ target.obstacles ++ value.obstacles)

def Sequence.obstacles : Sequence → List Obstacle
  | .mk first rest =>
    demand rest.isEmpty .commaSequence ++ (first.obstacles ++ allObstacles rest)

def Elements.obstacles : Elements → List Obstacle
  | .none => []
  | .skip rest => rest.obstacles
  | .last value => value.obstacles
  | .next value rest => value.obstacles ++ rest.obstacles

def allObstacles : List Expression → List Obstacle
  | [] => []
  | expression :: rest => expression.obstacles ++ allObstacles rest

end

def Declarator.obstacles (declarator : Declarator) : List Obstacle :=
  match declarator.initial with
  | none => []
  | some value => value.obstacles

mutual

def Statement.obstacles : Statement → List Obstacle
  | .block body => statementObstacles body
  | .declaration declarer first rest _ =>
    demand (declarer == .varWord) .declarationWord ++ demand rest.isEmpty .severalDeclarators ++
      (first.obstacles ++ rest.flatMap Declarator.obstacles)
  | .empty => []
  | .expression sequence _ => sequence.obstacles
  | .ifThen condition consequence => condition.obstacles ++ consequence.obstacles
  | .ifThenElse condition consequence alternative =>
    condition.obstacles ++ consequence.obstacles ++ alternative.obstacles
  | .loop condition body => .loop :: (condition.obstacles ++ body.obstacles)
  | .giveBack value _ => (value.map Sequence.obstacles).getD []
  | .function _ parameters body =>
    demand parameters.Nodup .duplicateParameter ++ statementObstacles body

def statementObstacles : List Statement → List Obstacle
  | [] => []
  | statement :: rest => statement.obstacles ++ statementObstacles rest

end

/-- Everything in a script that cannot be lowered. -/
def Script.obstacles (script : Script) : List Obstacle := statementObstacles script.body

end TreeScript.Surface
