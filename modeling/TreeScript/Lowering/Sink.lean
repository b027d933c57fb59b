import TreeScript.Operation

/-!
# Sinks

While a tree is lowered, finished statements are appended to the innermost open sink. Functions
and blocks open a sink of their own and close it when they are done, so that their statements
stay apart from those around them.
-/

namespace TreeScript

/-- What the operations in a sink will be the body of. -/
inductive SinkKind where
  | program
  | function
  | block
deriving DecidableEq, Repr

/-- How a kind of sink is called in messages. -/
def SinkKind.describe : SinkKind → String
  | program => "program"
  | function => "function body"
  | block => "block"

/-- An open sink and what was appended to it so far. -/
structure Sink where
  kind : SinkKind
  operations : List Operation

/-- A misuse of sinks. -/
inductive SinkError where
  | noneOpen
  | mismatch (expected found : SinkKind)
deriving DecidableEq, Repr

/-- The message of a misuse. -/
def SinkError.message : SinkError → String
  | noneOpen => "no open destination"
  | mismatch expected found =>
    s!"expected to close {expected.describe}, but {found.describe} is open"

/-- The open sinks, innermost first. -/
abbrev Sinks := List Sink

namespace Sinks

/-- Open a sink. -/
def push (sinks : Sinks) (kind : SinkKind) : Sinks := ⟨kind, []⟩ :: sinks

/-- Append an operation to the innermost sink. -/
def append (sinks : Sinks) (operation : Operation) : Except SinkError Sinks :=
  match sinks with
  | [] => .error .noneOpen
  | ⟨kind, operations⟩ :: outer => .ok (⟨kind, operations ++ [operation]⟩ :: outer)

/-- Close the innermost sink, which must be of the expected kind, and hand out its operations. -/
def pop (sinks : Sinks) (expected : SinkKind) : Except SinkError (List Operation × Sinks) :=
  match sinks with
  | [] => .error .noneOpen
  | ⟨found, operations⟩ :: outer =>
    if found = expected then .ok (operations, outer) else .error (.mismatch expected found)

/-- The kind of the innermost sink. -/
def innermost? (sinks : Sinks) : Option SinkKind := sinks.head?.map (·.kind)

end Sinks

end TreeScript
