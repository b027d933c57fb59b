import TreeScript.Machine.Builtin

/-!
# Running operations

An operation is evaluated for its value, or executed as a statement, which may also leave the
function or program around it. Calls of closures may be nested up to a limit. That is why every
run ends: a call runs the body of a closure with one call fewer to go, and everything else works
on a part of the operation.
-/

namespace TreeScript

/-- How many calls of closures may be open at a time. -/
def maxDepth : Nat := 256

/-- How a statement ends. -/
inductive Completion where
  /-- With a value, and the next statement follows. -/
  | finished (value : Value)
  /-- By leaving the function or program with a value. -/
  | returned (value : Value)

namespace Completion

/-- The value that a statement ends with. -/
def value : Completion → Value
  | finished value => value
  | returned value => value

/-- The value of a call whose body ends so: null unless the body was left. -/
def callValue : Completion → Value
  | finished _ => .null
  | returned value => value

end Completion

open Evaluation

mutual

/-- Evaluate an operation in a scope, inside a number of calls. -/
def evaluate (depth : Nat) (scope : ScopeId) (operation : Operation) : Evaluation Value :=
  match operation with
  | .literal value => return .ofLiteral value
  | .getVariable name => lookUp scope name
  | .setVariable name value policy declaration => do
    let value ← evaluate depth scope value
    bindName scope name value policy declaration
    return value
  | .getMember object member => do
    let object ← evaluate depth scope object
    consult (·.getMember object member)
  | .setMember object member value => do
    let object ← evaluate depth scope object
    let value ← evaluate depth scope value
    update (·.setMember object member value)
    return value
  | .getIndex object index => do
    let object ← evaluate depth scope object
    let index ← evaluate depth scope index
    consult (·.getIndex object index)
  | .setIndex object index value => do
    let object ← evaluate depth scope object
    let index ← evaluate depth scope index
    let value ← evaluate depth scope value
    update (·.setIndex object index value)
    return value
  | .call callee arguments => do
    let callee ← evaluate depth scope callee
    let arguments ← evaluateAll depth scope arguments
    call depth callee arguments
  | .createList elements => do
    let elements ← evaluateAll depth scope elements
    allocate (·.newList elements)
  | .binary .both left right => do
    if (← evaluate depth scope left).isTruthy then
      return .bool (← evaluate depth scope right).isTruthy
    else return .bool false
  | .binary .either left right => do
    if (← evaluate depth scope left).isTruthy then return .bool true
    else return .bool (← evaluate depth scope right).isTruthy
  | .binary operator left right => do
    let left ← evaluate depth scope left
    let right ← evaluate depth scope right
    consult (·.applyBinary operator left right)
  | .unary operator operand => do
    let operand ← evaluate depth scope operand
    consult fun _ => operand.applyUnary operator
  | .stackPush inner => do
    let value ← evaluate depth scope inner
    setAside value
    return value
  | .stackPop inner => do
    let _ ← evaluate depth scope inner
    takeBack
  | .function name parameters body =>
    allocate (·.newFunction (.closure name parameters body scope))
  | .giveBack _ => throw .statementAsValue
  | .ifThen _ _ => throw .statementAsValue
  | .ifThenElse _ _ _ => throw .statementAsValue
  | .block _ => throw .statementAsValue
termination_by (maxDepth - depth, sizeOf operation)

/-- Evaluate operations from the first to the last. -/
def evaluateAll (depth : Nat) (scope : ScopeId) (operations : List Operation) :
    Evaluation (List Value) :=
  match operations with
  | [] => return []
  | operation :: rest => do
    let value ← evaluate depth scope operation
    let values ← evaluateAll depth scope rest
    return value :: values
termination_by (maxDepth - depth, sizeOf operations)

/-- Execute an operation as a statement. Blocks and branches run in the scope around them. -/
def execute (depth : Nat) (scope : ScopeId) (operation : Operation) : Evaluation Completion :=
  match operation with
  | .giveBack value => do return .returned (← evaluate depth scope value)
  | .block body => executeAll depth scope .null body
  | .ifThen condition consequence => do
    if (← evaluate depth scope condition).isTruthy then
      executeAll depth scope .null consequence
    else return .finished .null
  | .ifThenElse condition consequence alternative => do
    if (← evaluate depth scope condition).isTruthy then
      executeAll depth scope .null consequence
    else executeAll depth scope .null alternative
  | operation => do return .finished (← evaluate depth scope operation)
termination_by (maxDepth - depth, sizeOf operation + 1)

/-- Execute statements until one of them leaves. They end with the value of the last one, or with
a value from before if there are none. -/
def executeAll (depth : Nat) (scope : ScopeId) (before : Value) (operations : List Operation) :
    Evaluation Completion :=
  match operations with
  | [] => return .finished before
  | operation :: rest => do
    match ← execute depth scope operation with
    | .finished value => executeAll depth scope value rest
    | .returned value => return .returned value
termination_by (maxDepth - depth, sizeOf operations + 1)

/-- Call a value with arguments, inside a number of calls. -/
def call (depth : Nat) (callee : Value) (arguments : List Value) : Evaluation Value := do
  match ← calledFunction callee with
  | .builtin which =>
    consult fun _ => which.checkArity arguments.length
    which.apply arguments
  | .closure _ parameters body outer =>
    if depth < maxDepth then
      let scope ← allocate (·.enterCall outer parameters arguments)
      return (← executeAll (depth + 1) scope .null body).callValue
    else throw .callsTooDeep
termination_by (maxDepth - depth, 0)

end

/-- Run a program in a scope. Its value is that of the statement it ends with. -/
def Program.run (program : Program) (scope : ScopeId) : Evaluation Value := do
  clearStack
  return (← executeAll 0 scope .null program.body).value

end TreeScript
