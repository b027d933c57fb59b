import TreeScript.Tree.Cursor

/-!
# Reading expressions

From the loosest to the tightest, an expression is an assignment, an operation on one of ten
left-associative levels, a power, a sign in front of an operand, an operand with one step sign
behind it, a chain of member, index and argument lists, or an atom. Assignments and powers
associate to the right. Each level reads the next tighter one first and then looks at one token
to decide whether to go on, so every reading takes at least one token.
-/

namespace TreeScript

/-- The levels of left-associative operators, loosest first. -/
inductive Level where
  | disjunction
  | conjunction
  | bitOr
  | bitXor
  | bitAnd
  | equality
  | comparison
  | shift
  | additive
  | multiplicative
deriving DecidableEq, Repr

namespace Level

/-- The signs of a level's operators. -/
def marks : Level → List Mark
  | disjunction => [.eitherOr]
  | conjunction => [.bothAnd]
  | bitOr => [.bitOr]
  | bitXor => [.bitXor]
  | bitAnd => [.bitAnd]
  | equality => [.equal, .notEqual, .identical, .notIdentical]
  | comparison => [.less, .greater, .lessEqual, .greaterEqual]
  | shift => [.shiftLeft, .shiftRight, .shiftRightZero]
  | additive => [.plus, .minus]
  | multiplicative => [.star, .slash, .percent]

/-- Whether a token is an operator of the level. -/
def accepts (level : Level) : Kind → Bool
  | .mark mark => level.marks.contains mark
  | _ => false

/-- The next tighter level, if there is one. -/
def tighter? : Level → Option Level
  | disjunction => some conjunction
  | conjunction => some bitOr
  | bitOr => some bitXor
  | bitXor => some bitAnd
  | bitAnd => some equality
  | equality => some comparison
  | comparison => some shift
  | shift => some additive
  | additive => some multiplicative
  | multiplicative => none

/-- How many levels are tighter. -/
def looseness : Level → Nat
  | disjunction => 9
  | conjunction => 8
  | bitOr => 7
  | bitXor => 6
  | bitAnd => 5
  | equality => 4
  | comparison => 3
  | shift => 2
  | additive => 1
  | multiplicative => 0

/-- The loosest level has the greatest number. -/
@[simp] theorem looseness_disjunction : disjunction.looseness = 9 := rfl

/-- A tighter level is one less loose. -/
theorem looseness_of_tighter? {level tighter : Level} (h : level.tighter? = some tighter) :
    tighter.looseness + 1 = level.looseness := by
  cases level <;> cases h <;> rfl

end Level

namespace Kind

/-- The signs that may stand in front of an operand. -/
def isPrefixSign : Kind → Bool
  | mark .increment | mark .decrement | mark .minus | mark .plus | mark .bang | mark .tilde => true
  | _ => false

/-- The step signs, which may also stand behind an operand. -/
def isStep : Kind → Bool
  | mark .increment | mark .decrement => true
  | _ => false

/-- The tokens that are an expression by themselves. -/
def isAtom : Kind → Bool
  | number | radixNumber _ | string | name => true
  | word w => w.isLiteral
  | _ => false

end Kind

/-- Items with the commas between them. -/
structure CommaList where
  first : Tree
  /-- The later items, each after its comma. -/
  rest : List (Tree × Tree)

/-- The items and commas in order, with each item wrapped. -/
def CommaList.flatten (list : CommaList) (wrap : Tree → Tree) : List Tree :=
  wrap list.first :: list.rest.flatMap fun (comma, item) => [comma, wrap item]

namespace Tree

/-- An expression made of the given parts. -/
def expression (parts : List Tree) : Tree := branch .singleExpression parts 0

/-- A node with one child. -/
def wrap (rule : Rule) (child : Tree) : Tree := branch rule [child] child.span.start

/-- The expression that a single token stands for. -/
def atom (token : Tree) : Tree :=
  match token.category? with
  | some .identifier => expression [wrap .identifier token]
  | some .decimalLiteral | some (.radixLiteral _) =>
    expression [wrap .literal (wrap .numericLiteral token)]
  | _ => expression [wrap .literal token]

end Tree

namespace Cursor

open TreeScript.Tree (expression)

/-- Read a name. -/
def readName (cursor : Cursor) : Attempt Tree cursor.remaining := do
  let name ← cursor.expect .name
  return name.map (.wrap .identifier)

/-- Read the name of a member, which may be a reserved word. -/
def readMemberName (cursor : Cursor) : Attempt Tree cursor.remaining :=
  match cursor.take? .name with
  | some name => .ok (name.map fun leaf => .wrap .identifierName (.wrap .identifier leaf))
  | none =>
    match cursor.takeIf? fun kind => kind matches .word _ with
    | some word => .ok (word.map (.wrap .identifierName))
    | none => cursor.refuse .propertyName

mutual

/-- Read expressions separated by commas. -/
def readCommaList (cursor : Cursor) : Attempt CommaList cursor.remaining := do
  let ⟨first, afterFirst, _⟩ ← cursor.readAssignment
  let ⟨rest, last, _⟩ ← afterFirst.readMoreItems
  return ⟨⟨first, rest⟩, last, by omega⟩
termination_by (cursor.remaining, 31)

/-- Read the expressions that follow, each after its comma. -/
def readMoreItems (cursor : Cursor) : Attempt (List (Tree × Tree)) (cursor.remaining + 1) :=
  match cursor.take? (.mark .comma) with
  | none => return cursor.stay []
  | some ⟨comma, afterComma, _⟩ => do
    let ⟨item, afterItem, _⟩ ← afterComma.readAssignment
    let ⟨rest, last, _⟩ ← afterItem.readMoreItems
    return ⟨(comma, item) :: rest, last, by omega⟩
termination_by (cursor.remaining, 0)

/-- Read a sequence of expressions as one node. -/
def readSequence (cursor : Cursor) : Attempt Tree cursor.remaining := do
  let ⟨list, last, _⟩ ← cursor.readCommaList
  return ⟨.branch .expressionSequence (list.flatten id) cursor.start, last, by omega⟩
termination_by (cursor.remaining, 32)

/-- Read an assignment, or an expression that is none. -/
def readAssignment (cursor : Cursor) : Attempt Tree cursor.remaining := do
  let ⟨target, afterTarget, _⟩ ← cursor.readBinary .disjunction
  match afterTarget.takeIf? Kind.isAssignment with
  | none => return ⟨target, afterTarget, by omega⟩
  | some ⟨sign, afterSign, _⟩ =>
    let ⟨value, last, _⟩ ← afterSign.readAssignment
    let operator := if afterTarget.isAt .assign then sign else .wrap .assignmentOperator sign
    return ⟨expression [target, operator, value], last, by omega⟩
termination_by (cursor.remaining, 30)

/-- Read an operand of a level and all operations on it. -/
def readBinary (cursor : Cursor) (level : Level) : Attempt Tree cursor.remaining := do
  let ⟨left, afterLeft, _⟩ ← cursor.readOperand level
  let ⟨tree, last, _⟩ ← afterLeft.readOperations level left
  return ⟨tree, last, by omega⟩
termination_by (cursor.remaining, 6 + 2 * level.looseness)

/-- Read an operand of a level, which is an expression of the next tighter one. -/
def readOperand (cursor : Cursor) (level : Level) : Attempt Tree cursor.remaining :=
  match h : level.tighter? with
  | some tighter =>
    have := Level.looseness_of_tighter? h
    cursor.readBinary tighter
  | none => cursor.readPower
termination_by (cursor.remaining, 5 + 2 * level.looseness)

/-- Read the operators of a level and their right operands, nesting to the left. -/
def readOperations (cursor : Cursor) (level : Level) (left : Tree) :
    Attempt Tree (cursor.remaining + 1) :=
  match cursor.takeIf? level.accepts with
  | none => return cursor.stay left
  | some ⟨sign, afterSign, _⟩ => do
    let ⟨right, afterRight, _⟩ ← afterSign.readOperand level
    let ⟨tree, last, _⟩ ← afterRight.readOperations level (expression [left, sign, right])
    return ⟨tree, last, by omega⟩
termination_by (cursor.remaining, 0)

/-- Read a power, nesting to the right. -/
def readPower (cursor : Cursor) : Attempt Tree cursor.remaining := do
  let ⟨base, afterBase, _⟩ ← cursor.readSigned
  match afterBase.take? (.mark .power) with
  | none => return ⟨base, afterBase, by omega⟩
  | some ⟨sign, afterSign, _⟩ =>
    let ⟨exponent, last, _⟩ ← afterSign.readPower
    return ⟨expression [base, sign, exponent], last, by omega⟩
termination_by (cursor.remaining, 4)

/-- Read an operand with any number of signs in front. -/
def readSigned (cursor : Cursor) : Attempt Tree cursor.remaining :=
  match cursor.takeIf? Kind.isPrefixSign with
  | none => cursor.readStepped
  | some ⟨sign, afterSign, _⟩ => do
    let ⟨operand, last, _⟩ ← afterSign.readSigned
    return ⟨expression [sign, operand], last, by omega⟩
termination_by (cursor.remaining, 3)

/-- Read an operand with at most one step sign behind it on the same line. -/
def readStepped (cursor : Cursor) : Attempt Tree cursor.remaining := do
  let ⟨operand, afterOperand, _⟩ ← cursor.readChain
  match afterOperand.takeIf? fun kind => kind.isStep && !afterOperand.newlineBefore with
  | none => return ⟨operand, afterOperand, by omega⟩
  | some ⟨sign, last, _⟩ => return ⟨expression [operand, sign], last, by omega⟩
termination_by (cursor.remaining, 2)

/-- Read an atom or a parenthesis and everything that is accessed through it. -/
def readChain (cursor : Cursor) : Attempt Tree cursor.remaining := do
  let ⟨subject, afterSubject, _⟩ ← cursor.readPrimary
  let ⟨tree, last, _⟩ ← afterSubject.readAccesses subject
  return ⟨tree, last, by omega⟩
termination_by (cursor.remaining, 1)

/-- Read members, indices and argument lists, nesting to the left. -/
def readAccesses (cursor : Cursor) (subject : Tree) : Attempt Tree (cursor.remaining + 1) :=
  match cursor.take? (.mark .dot) with
  | some ⟨dot, afterDot, _⟩ => do
    let ⟨name, afterName, _⟩ ← afterDot.readMemberName
    let ⟨tree, last, _⟩ ← afterName.readAccesses (expression [subject, dot, name])
    return ⟨tree, last, by omega⟩
  | none =>
    match cursor.take? (.mark .openBracket) with
    | some ⟨left, afterLeft, _⟩ => do
      let ⟨index, afterIndex, _⟩ ← afterLeft.readSequence
      let ⟨right, afterRight, _⟩ ← afterIndex.expectMark .closeBracket
      let ⟨tree, last, _⟩ ← afterRight.readAccesses (expression [subject, left, index, right])
      return ⟨tree, last, by omega⟩
    | none =>
      match cursor.take? (.mark .openParen) with
      | some ⟨left, afterLeft, _⟩ => do
        let ⟨arguments, afterArguments, _⟩ ← afterLeft.readArguments left
        let ⟨tree, last, _⟩ ← afterArguments.readAccesses (expression [subject, arguments])
        return ⟨tree, last, by omega⟩
      | none => return cursor.stay subject
termination_by (cursor.remaining, 0)

/-- Read the arguments of a call after their opening parenthesis. -/
def readArguments (cursor : Cursor) (left : Tree) : Attempt Tree cursor.remaining :=
  match cursor.take? (.mark .closeParen) with
  | some ⟨right, last, _⟩ =>
    return ⟨.branch .arguments [left, right] left.span.start, last, by omega⟩
  | none => do
    let ⟨list, afterList, _⟩ ← cursor.readCommaList
    let ⟨right, last, _⟩ ← afterList.expectMark .closeParen
    let parts := left :: list.flatten (.wrap .argument) ++ [right]
    return ⟨.branch .arguments parts left.span.start, last, by omega⟩
termination_by (cursor.remaining, 33)

/-- Read an atom, a list or an expression in parentheses. -/
def readPrimary (cursor : Cursor) : Attempt Tree cursor.remaining :=
  match cursor.takeIf? Kind.isAtom with
  | some leaf => return leaf.map .atom
  | none =>
    match cursor.take? (.mark .openBracket) with
    | some ⟨left, afterLeft, _⟩ => do
      let ⟨elements, afterElements, _⟩ ← afterLeft.readElements
      let ⟨right, last, _⟩ ← afterElements.expectMark .closeBracket
      let list := .branch .elementList elements afterLeft.start
      let array := .branch .arrayLiteral [left, list, right] cursor.start
      return ⟨expression [array], last, by omega⟩
    | none =>
      match cursor.take? (.mark .openParen) with
      | some ⟨left, afterLeft, _⟩ => do
        let ⟨inner, afterInner, _⟩ ← afterLeft.readSequence
        let ⟨right, last, _⟩ ← afterInner.expectMark .closeParen
        return ⟨expression [left, inner, right], last, by omega⟩
      | none => cursor.refuse .continuation
termination_by (cursor.remaining, 0)

/-- Read the elements of a list and the commas among them, up to the closing bracket.

Commas may follow one another; two elements need a comma between them. -/
def readElements (cursor : Cursor) : Attempt (List Tree) (cursor.remaining + 1) :=
  if cursor.tokens.isEmpty || cursor.isAt .closeBracket then return cursor.stay []
  else
    match cursor.take? (.mark .comma) with
    | some ⟨comma, afterComma, _⟩ => do
      let ⟨rest, last, _⟩ ← afterComma.readElements
      return ⟨comma :: rest, last, by omega⟩
    | none => do
      let ⟨value, afterValue, _⟩ ← cursor.readAssignment
      let element := .wrap .arrayElement value
      if afterValue.isAt .closeBracket then return ⟨[element], afterValue, by omega⟩
      else
        let ⟨comma, afterComma, _⟩ ← afterValue.expectMark .comma
        let ⟨rest, last, _⟩ ← afterComma.readElements
        return ⟨element :: comma :: rest, last, by omega⟩
termination_by (cursor.remaining, 34)

end

end Cursor

end TreeScript
