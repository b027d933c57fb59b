import TreeScript.Token.Scan
import TreeScript.Tree.Statement

/-!
# Trees of source texts

A source text is read token by token into a tree. A refusal becomes an error that names what was
expected, what was found, and the line and column of what was found.
-/

namespace TreeScript

/-- Why a source text could not be read. -/
structure SyntaxError where
  expected : Expectation
  /-- The text of the token that was found, if it was not the end of the input. -/
  found : Option String
  position : Position
deriving DecidableEq, Repr

namespace SyntaxError

/-- How the token that was found is called in the message. -/
def foundText (error : SyntaxError) : String :=
  match error.found with
  | some text => s!"'{text}'"
  | none => "end of input"

/-- The message without the place. -/
def complaint (error : SyntaxError) : String :=
  match error.expected with
  | .token kind => s!"Expected '{kind.describe}', found {error.foundText}"
  | .statementEnd => s!"Expected ';', found {error.foundText}"
  | .propertyName => s!"Expected property name, found {error.foundText}"
  | .continuation => s!"Unexpected token {error.foundText}"

/-- The message with the place. -/
def message (error : SyntaxError) : String :=
  s!"{error.complaint} at {error.position.line}:{error.position.column}"

end SyntaxError

/-- The error that a refusal amounts to in its source text. -/
def Refusal.toError (refusal : Refusal) (source : String) : SyntaxError where
  expected := refusal.expected
  found := refusal.stoppedAt.tokens.head?.map (·.text)
  position := Source.position source refusal.stoppedAt.start

/-- The beginning of a source text. -/
def Cursor.ofSource (source : String) : Cursor := .ofStream (.ofSource source)

/-- Read a source text into the tree of a program. -/
def Tree.parse (source : String) : Except SyntaxError Tree :=
  match (Cursor.ofSource source).readProgram with
  | .ok reading => .ok reading.value
  | .error refusal => .error (refusal.toError source)

end TreeScript
