import TreeScript.Lowering.Constant
import TreeScript.Lowering.State
import TreeScript.Lowering.Target

/-!
# Lowering trees to programs

A node is lowered by its rule, and within a rule by the number of its children and the texts of
its punctuation. Statements append operations to the innermost sink; expressions yield the
operation that computes their value. Trees need not come from a source text: each node is checked
before it is relied on, and the first check that fails, in the order written here, settles the
error.
-/

namespace TreeScript.Lowering

/-- The rules that may be the only part of an expression. -/
def isPrimaryRule : Rule → Bool
  | .identifier | .literal | .arrayLiteral | .singleExpression | .expressionSequence => true
  | _ => false

/-- The children of a tree are no larger than the tree. -/
theorem sizeOf_children_le (tree : Tree) : sizeOf tree.children ≤ sizeOf tree := by
  cases tree <;> simp [Tree.children] <;> omega

/-- Dropping the last item does not make a list of trees larger. -/
theorem sizeOf_dropLast_le (trees : List Tree) : sizeOf trees.dropLast ≤ sizeOf trees := by
  induction trees with
  | nil => simp
  | cons tree rest ih =>
    cases rest with
    | nil => simp
    | cons next rest =>
      simp only [List.dropLast_cons_cons, List.cons.sizeOf_spec] at ih ⊢
      omega

mutual

/-- Lower a node. Statements yield nothing, expressions their operation. -/
def visit (tree : Tree) : Lowering (Option Operation) :=
  match tree with
  | .leaf category text span =>
    throw ((Tree.leaf category text span).unsupported (.strayToken text))
  | .node rule children span =>
    let node := Tree.node rule children span
    match rule with
    | .sourceElements | .statementList => do
      visitAll children
      return none
    | .sourceElement | .statement => do
      visitInner node children
      return none
    | .variableStatement => do
      lowerVariable node children
      return none
    | .expressionStatement => do
      lowerExpressionStatement node children
      return none
    | .returnStatement => do
      lowerReturn node children
      return none
    | .functionDeclaration => do
      lowerFunction node children
      return none
    | .block => do
      let body ← blockBody node children
      emit (.block body) node
      return none
    | .ifStatement => do
      lowerConditional node children
      return none
    | .emptyStatement => return none
    | .expressionSequence => some <$> lowerSequence node children
    | .singleExpression => some <$> lowerExpression node children
    | .literal => return some (.literal (← node.literal))
    | .numericLiteral => return some (.literal (← node.numericLiteral))
    | .arrayLiteral => some <$> lowerArray node children
    | .identifier => return some (.getVariable (← node.identifierName))
    | .argument | .arrayElement => some <$> innerValue node children
    | _ => throw (node.unsupported (.misplaced rule))
termination_by (sizeOf tree, 0)

/-- Lower a node that must have a value. -/
def value (tree : Tree) : Lowering Operation := do
  match ← visit tree with
  | some operation => return operation
  | none => throw (tree.malformed .valueRequired)
termination_by (sizeOf tree, 1)

/-- Lower trees one after another for what they append. -/
def visitAll (trees : List Tree) : Lowering Unit :=
  match trees with
  | [] => return ()
  | tree :: rest => do
    let _ ← visit tree
    visitAll rest
termination_by (sizeOf trees, 0)

/-- Lower the one child of a node for what it appends. -/
def visitInner (node : Tree) (children : List Tree) : Lowering Unit :=
  match children with
  | [inner] => do let _ ← visit inner
  | _ => throw (node.unsupported .notOneChild)
termination_by (sizeOf children, 0)

/-- Lower the one child of a node for its value. -/
def innerValue (node : Tree) (children : List Tree) : Lowering Operation :=
  match children with
  | [inner] => value inner
  | _ => throw (node.unsupported .notOneChild)
termination_by (sizeOf children, 0)

/-- Lower a declaration of a variable. -/
def lowerVariable (node : Tree) (children : List Tree) : Lowering Unit :=
  match children with
  | [list, ending] => do
    list.requireRule .variableDeclarationList 0 node
    ending.requireRule .eos 1 node
    match list with
    | .node _ (modifier :: declarators) _ =>
      modifier.requireRule .varModifier 0 list
      if modifier.text ≠ "var" then
        throw (modifier.unsupported (.declarationWord modifier.text))
      match declarators with
      | [declaration] =>
        declaration.requireRule .variableDeclaration 1 list
        match declaration with
        | .node _ (assignable :: parts) _ =>
          let name ← assignable.assignableName
          let initial ← initialValue declaration parts
          emit (.setVariable name initial .cannotExist true) node
        | _ => throw (declaration.malformed (.missingChild 0))
      | _ => throw (list.unsupported .severalDeclarators)
    | _ => throw (list.malformed (.missingChild 0))
  | _ => throw (node.unsupported .variableShape)
termination_by (sizeOf children, 0)

/-- Lower the first value of a variable, which is null if it has none. -/
def initialValue (declaration : Tree) (parts : List Tree) : Lowering Operation :=
  match parts with
  | [] => return .literal .null
  | [sign, initial] => do
    sign.requireText "="
    value initial
  | _ => throw (declaration.unsupported .declaratorShape)
termination_by (sizeOf parts, 0)

/-- Lower a statement made of an expression. -/
def lowerExpressionStatement (node : Tree) (children : List Tree) : Lowering Unit :=
  match children with
  | [sequence, _] => do
    sequence.requireRule .expressionSequence 0 node
    emit (← value sequence) node
  | _ => throw (node.unsupported .expressionStatementShape)
termination_by (sizeOf children, 0)

/-- Lower a return. -/
def lowerReturn (node : Tree) (children : List Tree) : Lowering Unit :=
  match children with
  | [] => throw (node.malformed (.missingChild 0))
  | keyword :: parts => do
    keyword.requireText "return"
    match parts with
    | [_] => emit (.giveBack (.literal .null)) node
    | [sequence, _] =>
      sequence.requireRule .expressionSequence 1 node
      emit (.giveBack (← value sequence)) node
    | _ => throw (node.unsupported .returnShape)
termination_by (sizeOf children, 0)

/-- Lower a declaration of a function. -/
def lowerFunction (node : Tree) (children : List Tree) : Lowering Unit :=
  match children with
  | [keyword, identifier, left, right, body] => do
    keyword.requireText "function"
    let name ← identifier.identifierName
    left.requireText "("
    right.requireText ")"
    body.requireRule .functionBody 4 node
    let operations ← functionBody body
    emit (.setVariable name (.function name [] operations) .unconstrained true) node
  | [keyword, identifier, left, parameters, right, body] => do
    keyword.requireText "function"
    let name ← identifier.identifierName
    left.requireText "("
    right.requireText ")"
    parameters.requireRule .formalParameterList 3 node
    let names ← Tree.parameterNames [] parameters.children
    body.requireRule .functionBody 5 node
    let operations ← functionBody body
    emit (.setVariable name (.function name names operations) .unconstrained true) node
  | _ => throw (node.unsupported .functionShape)
termination_by (sizeOf children, 0)

/-- Lower the body of a function into a sink of its own. -/
def functionBody (body : Tree) : Lowering (List Operation) :=
  match body with
  | .node rule [opening, elements, closing] span => do
    let body := Tree.node rule [opening, elements, closing] span
    opening.requireText "\x7b"
    closing.requireText "\x7d"
    elements.requireRule .sourceElements 1 body
    collect .function body do let _ ← visit elements
  | _ => throw (body.unsupported .functionBodyShape)
termination_by (sizeOf body, 0)

/-- Lower the statements of a block into a sink of their own. -/
def blockBody (node : Tree) (children : List Tree) : Lowering (List Operation) :=
  match children with
  | [opening, statements, closing] => do
    opening.requireText "\x7b"
    closing.requireText "\x7d"
    statements.requireRule .statementList 1 node
    collect .block node do let _ ← visit statements
  | _ => throw (node.unsupported .blockShape)
termination_by (sizeOf children, 0)

/-- Lower a conditional. -/
def lowerConditional (node : Tree) (children : List Tree) : Lowering Unit :=
  match children with
  | [keyword, left, condition, right, consequence] => do
    let test ← conditionValue node keyword left condition right
    consequence.requireRule .statement 4 node
    let thenBody ← branch consequence
    emit (.ifThen test thenBody) node
  | [keyword, left, condition, right, consequence, otherwise, alternative] => do
    let test ← conditionValue node keyword left condition right
    consequence.requireRule .statement 4 node
    let thenBody ← branch consequence
    otherwise.requireText "else"
    alternative.requireRule .statement 6 node
    let elseBody ← branch alternative
    emit (.ifThenElse test thenBody elseBody) node
  | _ => throw (node.unsupported .conditionalShape)
termination_by (sizeOf children, 0)

/-- Lower the condition of a conditional, after checking what stands around it. -/
def conditionValue (node keyword left condition right : Tree) : Lowering Operation := do
  keyword.requireText "if"
  left.requireText "("
  right.requireText ")"
  condition.requireRule .expressionSequence 2 node
  value condition
termination_by (sizeOf condition, 2)

/-- Lower a branch of a conditional. The statements of a block count as the branch's own. -/
def branch (statement : Tree) : Lowering (List Operation) :=
  match statement with
  | .node rule [inner] span =>
    have := sizeOf_children_le inner
    if inner.rule? = some .block then blockBody inner inner.children
    else collect .block (.node rule [inner] span) do let _ ← visit (.node rule [inner] span)
  | _ => throw (statement.unsupported .notOneChild)
termination_by (sizeOf statement, 1)

/-- Lower a sequence of expressions, which must be one. -/
def lowerSequence (node : Tree) (children : List Tree) : Lowering Operation :=
  match children with
  | [only] => value only
  | _ => throw (node.unsupported .commaSequence)
termination_by (sizeOf children, 0)

/-- Lower an expression by the number of its parts. -/
def lowerExpression (node : Tree) (children : List Tree) : Lowering Operation := do
  if (← mode) = .target then throw (node.malformed .valueInTargetMode)
  match children with
  | [inner] => primary inner
  | [first, second] => lowerPair node first second
  | [first, second, third] => lowerTriple node first second third
  | [object, left, index, right] =>
    if left.isText "[" && right.isText "]" then
      let object ← value object
      index.requireRule .expressionSequence 2 node
      let index ← value index
      return .getIndex object index
    else throw (node.unsupported (.expressionShape node.text))
  | _ => throw (node.unsupported (.expressionShape node.text))
termination_by (sizeOf children, 0)

/-- Lower an expression with one part. -/
def primary (inner : Tree) : Lowering Operation :=
  if (inner.rule?.map isPrimaryRule).getD false then value inner
  else
    match inner with
    | .node .expressionStatement (sequence :: rest) span => do
      let statement := Tree.node .expressionStatement (sequence :: rest) span
      sequence.requireRule .expressionSequence 0 statement
      value sequence
    | .node .expressionStatement [] span =>
      throw ((Tree.node .expressionStatement [] span).malformed (.missingChild 0))
    | _ => throw (inner.unsupported (.notAValue inner.text))
termination_by (sizeOf inner, 2)

/-- Lower an expression with two parts: a sign and an operand, or a call. -/
def lowerPair (node first second : Tree) : Lowering Operation := do
  if first.isLeaf then
    match stepOperator? first.text with
    | some operator => return (← target second).stepBefore operator
    | none =>
      match UnaryOperator.ofSymbol? first.text with
      | some operator => return .unary operator (← value second)
      | none => throw (node.unsupported (.signBefore first.text))
  else
    match second with
    | .node .arguments children span =>
      let callee ← value first
      let arguments ← lowerArguments (.node .arguments children span) children
      return .call callee arguments
    | .node _ _ _ => throw (node.unsupported (.expressionShape node.text))
    | .leaf _ text _ =>
      match stepOperator? text with
      | some operator => return (← target first).stepAfter operator
      | none => throw (node.unsupported (.signBehind text))
termination_by (sizeOf first + sizeOf second + 1, 0)

/-- Lower the arguments of a call. -/
def lowerArguments (node : Tree) (children : List Tree) : Lowering (List Operation) :=
  match children with
  | left :: rest =>
    have := sizeOf_dropLast_le rest
    match rest.getLast? with
    | some right => do
      left.requireText "("
      right.requireText ")"
      lowerItems .argumentSeparator rest.dropLast
    | none => throw (node.malformed .argumentParentheses)
  | [] => throw (node.malformed .argumentParentheses)
termination_by (sizeOf children, 1)

/-- Lower items among which commas may stand. -/
def lowerItems (fault : Malformed) (items : List Tree) : Lowering (List Operation) :=
  match items with
  | [] => return []
  | item :: rest => do
    if item.isLeaf then
      if item.text ≠ "," then throw (item.malformed fault)
      lowerItems fault rest
    else
      let first ← value item
      let others ← lowerItems fault rest
      return first :: others
termination_by (sizeOf items, 0)

/-- Lower an expression with three parts: a parenthesis, a member, an assignment or an
operation. -/
def lowerTriple (node left middle right : Tree) : Lowering Operation := do
  if left.isText "(" && right.isText ")" then
    middle.requireRule .expressionSequence 1 node
    value middle
  else if middle.rule? = some .assignmentOperator then
    match BinaryOperator.ofCompound? middle.text with
    | none => throw (middle.unsupported (.compoundSign middle.text))
    | some operator =>
      let place ← target left
      let operand ← value right
      return place.combine operator operand
  else if !middle.isLeaf then throw (node.unsupported (.operator middle.text))
  else if middle.text = "." then
    let object ← value left
    return .getMember object (← right.memberName)
  else if middle.text = "=" then
    let place ← target left
    let operand ← value right
    return place.assign operand
  else
    match BinaryOperator.ofSymbol? middle.text with
    | none => throw (node.unsupported (.operator middle.text))
    | some operator =>
      let leftValue ← value left
      let rightValue ← value right
      return .binary operator leftValue rightValue
termination_by (sizeOf left + sizeOf middle + sizeOf right + 1, 0)

/-- Lower a list. -/
def lowerArray (node : Tree) (children : List Tree) : Lowering Operation :=
  match children with
  | [left, list, right] => do
    left.requireText "["
    right.requireText "]"
    list.requireRule .elementList 1 node
    match list with
    | .node _ elements _ => return .createList (← lowerItems .elementSeparator elements)
    | .leaf _ _ _ => return .createList []
  | _ => throw (node.unsupported .arrayShape)
termination_by (sizeOf children, 0)

/-- Lower the target of an assignment. -/
def target (tree : Tree) : Lowering Target := inMode .target (targetShape tree)
termination_by (sizeOf tree, 3)

/-- Lower a target by the number of its parts. -/
def targetShape (tree : Tree) : Lowering Target := do
  if (← mode) ≠ .target then throw (tree.malformed .targetOutsideMode)
  match tree with
  | .node .singleExpression children span =>
    let node := Tree.node .singleExpression children span
    match children with
    | [inner] =>
      if inner.rule? = some .identifier then return .named (← inner.identifierName)
      else throw (node.unsupported (.targetShape node.text))
    | [object, dot, name] =>
      if dot.isText "." then
        let object ← inMode .value (value object)
        name.requireRule .identifierName 2 node
        return .member object (← name.targetMemberName)
      else throw (node.unsupported (.targetShape node.text))
    | [object, left, index, right] =>
      if left.isText "[" && right.isText "]" then
        let object ← inMode .value (value object)
        index.requireRule .expressionSequence 2 node
        let index ← inMode .value (value index)
        return .index object index
      else throw (node.unsupported (.targetShape node.text))
    | _ => throw (node.unsupported (.targetShape node.text))
  | _ => throw (tree.unsupported .targetRule)
termination_by (sizeOf tree, 2)

end

/-- Lower the tree of a program. -/
def lowerProgram (root : Tree) : Lowering Program := do
  if root.rule? ≠ some .program then throw (root.malformed .notAProgram)
  match root.children with
  | [elements, ending] =>
    if ending.category? ≠ some .endOfInput then throw (ending.malformed .noEnd)
    openSink .program
    let _ ← visit elements
    let body ← close .program root
    let state ← get
    if state.sinks.isEmpty && state.modes = [.value] then return ⟨body⟩
    else throw (root.malformed .stateNotRestored)
  | _ => throw (root.unsupported .programShape)

end TreeScript.Lowering

namespace TreeScript

/-- The program that a tree stands for. -/
def Program.ofTree (root : Tree) : Except CompileError Program :=
  ((Lowering.lowerProgram root).run Lowering.initial).1

end TreeScript
