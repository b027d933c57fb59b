import TreeScript.Tree.Expression

/-!
# Reading statements

The first token of a statement settles its form. A statement that needs an end mark may leave it
out before a closing brace, at the end of the input and at a line break; the node of the end mark
is empty then and sits where the last token ended. A value after `return` must begin on the same
line, and an `else` belongs to the nearest conditional that still lacks one.
-/

namespace TreeScript

/-- The words that begin a declaration of variables. -/
def Kind.isDeclarer : Kind → Bool
  | word .varWord | word .letWord | word .constWord => true
  | _ => false

namespace Cursor

/-! ## Parts of statements -/

/-- Read the items that follow, each after its comma. -/
def readMoreOf (item : (cursor : Cursor) → Attempt Tree cursor.remaining) (cursor : Cursor) :
    Attempt (List (Tree × Tree)) (cursor.remaining + 1) :=
  match cursor.take? (.mark .comma) with
  | none => return cursor.stay []
  | some ⟨comma, afterComma, _⟩ => do
    let ⟨first, afterItem, _⟩ ← item afterComma
    let ⟨rest, last, _⟩ ← afterItem.readMoreOf item
    return ⟨(comma, first) :: rest, last, by omega⟩
termination_by cursor.remaining

/-- Read items separated by commas. -/
def readListOf (item : (cursor : Cursor) → Attempt Tree cursor.remaining) (cursor : Cursor) :
    Attempt CommaList cursor.remaining := do
  let ⟨first, afterFirst, hfirst⟩ ← item cursor
  let ⟨rest, last, hlast⟩ ← afterFirst.readMoreOf item
  return ⟨⟨first, rest⟩, last, remaining_lt_of_lt_succ hlast hfirst⟩

/-- Read the end mark of a statement, or nothing where it may be left out. -/
def readStatementEnd (cursor : Cursor) : Attempt Tree (cursor.remaining + 1) :=
  match cursor.take? (.mark .semicolon) with
  | some ⟨semicolon, last, h⟩ => return ⟨.wrap .eos semicolon, last, remaining_lt_succ h⟩
  | none =>
    if cursor.isAt .closeBrace || cursor.tokens.isEmpty || cursor.newlineBefore then
      return cursor.stay (.branch .eos [] cursor.previousEnd)
    else cursor.refuse .statementEnd

/-- Read a name to be bound. -/
def readAssignable (cursor : Cursor) : Attempt Tree cursor.remaining := do
  let name ← cursor.readName
  return name.map (.wrap .assignable)

/-- Read a variable to be declared and its first value, if it has one. -/
def readDeclarator (cursor : Cursor) : Attempt Tree cursor.remaining := do
  let ⟨name, afterName, hname⟩ ← cursor.readAssignable
  match afterName.take? (.mark .assign) with
  | none => return ⟨.wrap .variableDeclaration name, afterName, hname⟩
  | some ⟨sign, afterSign, hsign⟩ =>
    let ⟨value, last, hlast⟩ ← afterSign.readAssignment
    have hlast := remaining_lt_trans hlast hsign
    return ⟨.branch .variableDeclaration [name, sign, value] cursor.start, last,
      remaining_lt_trans hlast hname⟩

/-- Read a parameter of a function. -/
def readParameter (cursor : Cursor) : Attempt Tree cursor.remaining := do
  let name ← cursor.readAssignable
  return name.map (.wrap .formalParameterArg)

/-- Read the parameters of a function up to the closing parenthesis, if there are any. -/
def readParameters (cursor : Cursor) : Attempt (List Tree) (cursor.remaining + 1) :=
  if cursor.isAt .closeParen then return cursor.stay []
  else do
    let ⟨list, last, h⟩ ← cursor.readListOf readParameter
    return ⟨[.branch .formalParameterList (list.flatten id) cursor.start], last,
      remaining_lt_succ h⟩

/-! ## Statements without statements inside -/

/-- Read a declaration of variables. -/
def readVariableStatement (cursor : Cursor) : Attempt Tree cursor.remaining :=
  match cursor.takeIf? Kind.isDeclarer with
  | none => cursor.refuse .continuation
  | some ⟨modifier, afterModifier, hmodifier⟩ => do
    let ⟨list, afterList, hlist⟩ ← afterModifier.readListOf readDeclarator
    let ⟨ending, last, hlast⟩ ← afterList.readStatementEnd
    have hlast := remaining_lt_of_lt_succ hlast hlist
    let parts := .wrap .varModifier modifier :: list.flatten id
    let declarations := .branch .variableDeclarationList parts cursor.start
    return ⟨.branch .variableStatement [declarations, ending] cursor.start, last,
      remaining_lt_trans hlast hmodifier⟩

/-- Read a statement that is only an end mark. -/
def readEmptyStatement (cursor : Cursor) : Attempt Tree cursor.remaining := do
  let semicolon ← cursor.expectMark .semicolon
  return semicolon.map (.wrap .emptyStatement)

/-- Read a statement made of expressions. -/
def readExpressionStatement (cursor : Cursor) : Attempt Tree cursor.remaining := do
  let ⟨sequence, afterSequence, hsequence⟩ ← cursor.readSequence
  let ⟨ending, last, hlast⟩ ← afterSequence.readStatementEnd
  return ⟨.branch .expressionStatement [sequence, ending] cursor.start, last,
    remaining_lt_of_lt_succ hlast hsequence⟩

/-- Read what a function returns, if a value begins here. -/
def readReturned (cursor : Cursor) : Attempt (List Tree) (cursor.remaining + 1) :=
  if cursor.isAt .semicolon || cursor.isAt .closeBrace || cursor.tokens.isEmpty ||
      cursor.newlineBefore then
    return cursor.stay []
  else do
    let ⟨sequence, last, h⟩ ← cursor.readSequence
    return ⟨[sequence], last, remaining_lt_succ h⟩

/-- Read a return from a function. -/
def readReturn (cursor : Cursor) : Attempt Tree cursor.remaining := do
  let ⟨keyword, afterKeyword, hkeyword⟩ ← cursor.expect (.word .returnWord)
  let ⟨value, afterValue, hvalue⟩ ← afterKeyword.readReturned
  let ⟨ending, last, hlast⟩ ← afterValue.readStatementEnd
  have hvalue := remaining_lt_of_lt_succ hvalue hkeyword
  let parts := keyword :: value ++ [ending]
  return ⟨.branch .returnStatement parts cursor.start, last, remaining_lt_of_lt_succ hlast hvalue⟩

/-- Read a condition in parentheses, as its three parts. -/
def readCondition (cursor : Cursor) : Attempt (List Tree) cursor.remaining := do
  let ⟨left, afterLeft, hleft⟩ ← cursor.expectMark .openParen
  let ⟨condition, afterCondition, hcondition⟩ ← afterLeft.readSequence
  let ⟨right, last, hlast⟩ ← afterCondition.expectMark .closeParen
  have hlast := remaining_lt_trans hlast hcondition
  return ⟨[left, condition, right], last, remaining_lt_trans hlast hleft⟩

/-! ## Statements with statements inside -/

mutual

/-- Read a statement. -/
def readStatement (cursor : Cursor) : Attempt Tree cursor.remaining := do
  let inner ←
    match cursor.kind? with
    | some (.word .varWord) | some (.word .letWord) | some (.word .constWord) =>
      cursor.readVariableStatement
    | some (.word .functionWord) => cursor.readFunction
    | some (.word .ifWord) => cursor.readConditional
    | some (.word .whileWord) => cursor.readLoop
    | some (.word .returnWord) => cursor.readReturn
    | some (.mark .openBrace) => cursor.readBlock
    | some (.mark .semicolon) => cursor.readEmptyStatement
    | _ => cursor.readExpressionStatement
  return inner.map (.wrap .statement)
termination_by (cursor.remaining, 1)

/-- Read statements up to a closing brace or the end of the input. -/
def readStatements (cursor : Cursor) : Attempt (List Tree) (cursor.remaining + 1) :=
  if cursor.isAt .closeBrace || cursor.tokens.isEmpty then return cursor.stay []
  else do
    let ⟨statement, afterStatement, hstatement⟩ ← cursor.readStatement
    let ⟨rest, last, hlast⟩ ← afterStatement.readStatements
    have hlast := remaining_lt_of_lt_succ hlast hstatement
    return ⟨statement :: rest, last, remaining_lt_succ hlast⟩
termination_by (cursor.remaining, 2)

/-- Read the statements of a program or a function body as one node. -/
def readSourceElements (cursor : Cursor) : Attempt Tree (cursor.remaining + 1) := do
  let statements ← cursor.readStatements
  return statements.map fun list =>
    .branch .sourceElements (list.map (.wrap .sourceElement)) cursor.start
termination_by (cursor.remaining, 3)

/-- Read a declaration of a function. -/
def readFunction (cursor : Cursor) : Attempt Tree cursor.remaining := do
  let ⟨keyword, afterKeyword, _⟩ ← cursor.expect (.word .functionWord)
  let ⟨name, afterName, _⟩ ← afterKeyword.readName
  let ⟨left, afterLeft, _⟩ ← afterName.expectMark .openParen
  let ⟨parameters, afterParameters, _⟩ ← afterLeft.readParameters
  let ⟨right, afterRight, _⟩ ← afterParameters.expectMark .closeParen
  let ⟨opening, afterOpening, _⟩ ← afterRight.expectMark .openBrace
  let ⟨elements, afterElements, _⟩ ← afterOpening.readSourceElements
  let ⟨closing, last, _⟩ ← afterElements.expectMark .closeBrace
  let body := .branch .functionBody [opening, elements, closing] afterRight.start
  let parts := [keyword, name, left] ++ parameters ++ [right, body]
  return ⟨.branch .functionDeclaration parts cursor.start, last, by omega⟩
termination_by (cursor.remaining, 0)

/-- Read statements in braces. -/
def readBlock (cursor : Cursor) : Attempt Tree cursor.remaining := do
  let ⟨opening, afterOpening, hopening⟩ ← cursor.expectMark .openBrace
  let ⟨statements, afterStatements, hstatements⟩ ← afterOpening.readStatements
  let ⟨closing, last, hlast⟩ ← afterStatements.expectMark .closeBrace
  have hstatements := remaining_lt_of_lt_succ hstatements hopening
  let list := .branch .statementList statements afterOpening.start
  return ⟨.branch .block [opening, list, closing] cursor.start, last,
    remaining_lt_trans hlast hstatements⟩
termination_by (cursor.remaining, 0)

/-- Read a conditional. -/
def readConditional (cursor : Cursor) : Attempt Tree cursor.remaining := do
  let ⟨keyword, afterKeyword, _⟩ ← cursor.expect (.word .ifWord)
  let ⟨condition, afterCondition, _⟩ ← afterKeyword.readCondition
  let ⟨consequence, afterConsequence, _⟩ ← afterCondition.readStatement
  let parts := keyword :: condition ++ [consequence]
  match afterConsequence.take? (.word .elseWord) with
  | none => return ⟨.branch .ifStatement parts cursor.start, afterConsequence, by omega⟩
  | some ⟨otherwise, afterOtherwise, _⟩ =>
    let ⟨alternative, last, _⟩ ← afterOtherwise.readStatement
    return ⟨.branch .ifStatement (parts ++ [otherwise, alternative]) cursor.start, last, by omega⟩
termination_by (cursor.remaining, 0)

/-- Read a loop. -/
def readLoop (cursor : Cursor) : Attempt Tree cursor.remaining := do
  let ⟨keyword, afterKeyword, _⟩ ← cursor.expect (.word .whileWord)
  let ⟨condition, afterCondition, _⟩ ← afterKeyword.readCondition
  let ⟨body, last, _⟩ ← afterCondition.readStatement
  return ⟨.branch .iterationStatement (keyword :: condition ++ [body]) cursor.start, last, by omega⟩
termination_by (cursor.remaining, 0)

end

/-- Read a whole program, which must reach the end of the input. -/
def readProgram (cursor : Cursor) : Attempt Tree (cursor.remaining + 1) := do
  let ⟨elements, last, _⟩ ← cursor.readSourceElements
  if last.tokens.isEmpty then
    return ⟨.branch .program [elements, last.endLeaf] 0, last, by omega⟩
  else last.refuse .continuation

end Cursor

end TreeScript
