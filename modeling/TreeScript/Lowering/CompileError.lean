import TreeScript.Lowering.Sink
import TreeScript.Tree

/-!
# Why a tree cannot be lowered

A tree is rejected in one of three ways: a node has a shape that lowering does not handle, the
tree or the state of lowering breaks a rule that every tree of the grammar keeps, or a literal is
written in a form that is not supported. Each rejection names the node at fault by its rule and
span.
-/

namespace TreeScript

/-- The shapes that are not handled. -/
inductive Unsupported where
  | programShape
  | strayToken (text : String)
  | misplaced (rule : Rule)
  | notOneChild
  | destructuring
  | targetRule
  | targetShape (text : String)
  | compoundSign (text : String)
  | variableShape
  | declarationWord (text : String)
  | severalDeclarators
  | declaratorShape
  | expressionStatementShape
  | returnShape
  | functionShape
  | functionBodyShape
  | parameterShape
  | blockShape
  | conditionalShape
  | commaSequence
  | expressionShape (text : String)
  | notAValue (text : String)
  | signBefore (text : String)
  | signBehind (text : String)
  | operator (text : String)
  | arrayShape
  | literal (text : String)
deriving DecidableEq, Repr

/-- The wording of an unsupported shape. -/
def Unsupported.detail : Unsupported → String
  | programShape => "program must be `sourceElements EOF`"
  | strayToken text => s!"unexpected token `{text}`"
  | misplaced rule => s!"`{rule.name}` is not supported here"
  | notOneChild => "expected exactly one child"
  | destructuring => "destructuring targets are not supported"
  | targetRule => "invalid assignment target"
  | targetShape text => s!"invalid assignment target `{text}`"
  | compoundSign text => s!"compound assignment `{text}`"
  | variableShape => "expected `variableDeclarationList eos`"
  | declarationWord text => s!"`{text}` declarations are not supported"
  | severalDeclarators => "only one declarator per statement is supported"
  | declaratorShape => "expected `name = value`"
  | expressionStatementShape => "expected `expressionSequence eos`"
  | returnShape => "expected `return value;`"
  | functionShape => "expected `function name(params) \x7b body \x7d`"
  | functionBodyShape => "expected `\x7b sourceElements \x7d`"
  | parameterShape => "default and rest parameters are not supported"
  | blockShape => "expected `\x7b statementList \x7d`"
  | conditionalShape => "expected `if (condition) statement else statement`"
  | commaSequence => "comma sequences are not supported"
  | expressionShape text => s!"`{text}`"
  | notAValue text => s!"`{text}` is not a value"
  | signBefore text => s!"prefix operator `{text}`"
  | signBehind text => s!"postfix operator `{text}`"
  | operator text => s!"operator `{text}`"
  | arrayShape => "expected `[ elementList ]`"
  | literal text => s!"literal `{text}`"

/-- How a rule, or the lack of one, is called in messages. -/
def ruleName : Option Rule → String
  | some rule => rule.name
  | none => "token"

/-- The rules of well-formed trees and of the state of lowering. -/
inductive Malformed where
  | notAProgram
  | noEnd
  | stateNotRestored
  | valueRequired
  | sink (error : SinkError)
  | sinksNotRestored
  | missingChild (index : Nat)
  | wrongRule (expected : Rule) (index : Nat) (parent : Option Rule)
  | wrongText (expected found : String)
  | notAnIdentifier
  | identifierNotToken
  | notAnAssignable
  | targetOutsideMode
  | valueInTargetMode
  | parameterSeparator
  | duplicateParameter (name : String)
  | argumentParentheses
  | argumentSeparator
  | elementSeparator
  | badBoolean (text : String)
  | unterminatedString (text : String)
  | notAMemberName
deriving DecidableEq, Repr

/-- The wording of a broken rule. -/
def Malformed.detail : Malformed → String
  | notAProgram => "expected a program root"
  | noEnd => "expected end of input after source elements"
  | stateNotRestored => "compiler state not restored after program"
  | valueRequired => "statement used where a value is required"
  | sink error => error.message
  | sinksNotRestored => "destination depth not restored"
  | missingChild index => s!"missing child {index}"
  | wrongRule expected index parent =>
    s!"expected {expected.name} at position {index} of {ruleName parent}"
  | wrongText expected found => s!"expected `{expected}`, found `{found}`"
  | notAnIdentifier => "expected an identifier"
  | identifierNotToken => "identifier must wrap a single token"
  | notAnAssignable => "expected an assignable"
  | targetOutsideMode => "assignment target resolved outside lvalue mode"
  | valueInTargetMode => "value expression compiled as an assignment target"
  | parameterSeparator => "expected `,` between parameters"
  | duplicateParameter name => s!"duplicate parameter `{name}`"
  | argumentParentheses => "expected `(` and `)`"
  | argumentSeparator => "expected `,` between arguments"
  | elementSeparator => "expected `,` between elements"
  | badBoolean text => s!"bad boolean `{text}`"
  | unterminatedString text => s!"unterminated string `{text}`"
  | notAMemberName => "expected a member name"

/-- A rejected tree, with the rule and span of the node at fault. -/
inductive CompileError where
  | unsupported (rule : Option Rule) (children : Nat) (cause : Unsupported) (span : Span)
  | malformed (rule : Option Rule) (cause : Malformed) (span : Span)
  | unimplementedLiteral (text : String) (span : Span)
deriving DecidableEq, Repr

namespace CompileError

/-- The span of the node at fault. -/
def span : CompileError → Span
  | unsupported _ _ _ span => span
  | malformed _ _ span => span
  | unimplementedLiteral _ span => span

/-- What was found wrong, without the node's rule. -/
def detail : CompileError → String
  | unsupported _ _ cause _ => cause.detail
  | malformed _ cause _ => cause.detail
  | unimplementedLiteral text _ => text

/-- The message of a rejection. -/
def message (error : CompileError) : String :=
  match error with
  | unsupported rule children cause _ =>
    s!"unsupported {ruleName rule} with {children} children: {cause.detail}"
  | malformed rule cause _ => s!"malformed {ruleName rule}: {cause.detail}"
  | unimplementedLiteral text _ => s!"unimplemented literal `{text}`"

/-- The place of the node at fault in a source text, with the first line of it. -/
def excerpt (error : CompileError) (source : String) : String := Source.excerpt source error.span

end CompileError

namespace Tree

/-- Reject a node for its shape. -/
def unsupported (tree : Tree) (cause : Unsupported) : CompileError :=
  .unsupported tree.rule? tree.children.length cause tree.span

/-- Reject a node for a broken rule. -/
def malformed (tree : Tree) (cause : Malformed) : CompileError :=
  .malformed tree.rule? cause tree.span

/-- Reject a literal. -/
def unimplementedLiteral (tree : Tree) : CompileError := .unimplementedLiteral tree.text tree.span

end Tree

end TreeScript
