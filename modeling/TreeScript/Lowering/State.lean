import TreeScript.Lowering.CompileError

/-!
# The state of lowering

Lowering keeps the open sinks and a stack of modes, which tells whether an expression is lowered
for its value or as the target of an assignment. A rejection keeps the state it arose in.
-/

namespace TreeScript

/-- What an expression is lowered for. -/
inductive Mode where
  | value
  | target
deriving DecidableEq, Repr

/-- The open sinks and the modes, both innermost first. -/
structure LoweringState where
  sinks : Sinks
  modes : List Mode

/-- A step of lowering. -/
abbrev Lowering := ExceptT CompileError (StateM LoweringState)

namespace Lowering

/-- The state that lowering begins in. -/
def initial : LoweringState := ⟨[], [.value]⟩

/-- The innermost mode; without any, expressions are lowered for their value. -/
def mode : Lowering Mode := do return (← get).modes.headD .value

/-- Take a step in a mode, and leave the mode afterwards, also when the step fails. -/
def inMode {α : Type} (mode : Mode) (step : Lowering α) : Lowering α := fun state =>
  let (result, after) := step { state with modes := mode :: state.modes }
  (result, { after with modes := after.modes.tail })

/-- Append an operation to the innermost sink on behalf of a node. -/
def emit (operation : Operation) (node : Tree) : Lowering Unit := do
  let state ← get
  match state.sinks.append operation with
  | .ok sinks => set { state with sinks }
  | .error error => throw (node.malformed (.sink error))

/-- Close the innermost sink on behalf of a node. -/
def close (kind : SinkKind) (node : Tree) : Lowering (List Operation) := do
  let state ← get
  match state.sinks.pop kind with
  | .ok (operations, sinks) =>
    set { state with sinks }
    return operations
  | .error error => throw (node.malformed (.sink error))

/-- Open a sink. -/
def openSink (kind : SinkKind) : Lowering Unit :=
  modify fun state => { state with sinks := state.sinks.push kind }

/-- Collect what a step appends to a fresh sink. -/
def collect (kind : SinkKind) (node : Tree) (step : Lowering Unit) : Lowering (List Operation) := do
  let depth := (← get).sinks.length
  openSink kind
  step
  let operations ← close kind node
  if (← get).sinks.length = depth then return operations
  else throw (node.malformed .sinksNotRestored)

end Lowering

end TreeScript
