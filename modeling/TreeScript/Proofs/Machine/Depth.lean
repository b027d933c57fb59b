import TreeScript.Machine.Evaluate
import TreeScript.Proofs.Outcome

/-!
# Termination and the depth of calls

A machine that counts its open calls as it goes needs no measure to be written down: here it runs
on fuel, spends some on every operation, and may run out. `Follows` compares it with evaluation
inside a fixed number of calls. Enough fuel exists for every program, heap and machine, whatever
the operations and the closures are; the result is then that of evaluation, and every call gives
the count back as it found it, also when it fails. The induction is that of evaluation itself, on
the calls that may still be opened and then on the operation.
-/

namespace TreeScript

/-- A count of open calls. -/
structure Meter where
  /-- The calls that are open. -/
  depth : Nat
  /-- The most calls that have been open at a time. -/
  deepest : Nat

/-- One more call is open. -/
def Meter.enter (meter : Meter) : Meter :=
  ⟨meter.depth + 1, max meter.deepest (meter.depth + 1)⟩

/-- One call fewer is open. -/
def Meter.leave (meter : Meter) : Meter := { meter with depth := meter.depth - 1 }

/-- A step of a run that counts its open calls and has no result if its fuel runs out. -/
abbrev Metered := ExceptT Fault (StateT (Machine × Meter) Option)

namespace Metered

variable {α β : Type}

/-- The fuel has run out. -/
def outOfFuel : Metered α := fun _ => none

/-- A step that opens no calls. -/
def ofStep (step : Evaluation α) : Metered α := fun (machine, meter) =>
  let (result, machine) := step machine
  some (result, machine, meter)

/-- How many calls are open. -/
def openCalls : Metered Nat := fun (machine, meter) => some (.ok meter.depth, machine, meter)

/-- Run the body of a call. The call is closed again whether the body succeeds or fails. -/
def inCall (body : Metered α) : Metered α := fun (machine, meter) =>
  match body (machine, meter.enter) with
  | some (result, machine, meter) => some (result, machine, meter.leave)
  | none => none

mutual

/-- Evaluate an operation in a scope, with the open calls counted. -/
def evaluate (fuel : Nat) (scope : ScopeId) (operation : Operation) : Metered Value :=
  match fuel with
  | 0 => outOfFuel
  | fuel + 1 =>
    match operation with
    | .literal value => return .ofLiteral value
    | .getVariable name => ofStep (Evaluation.lookUp scope name)
    | .setVariable name value policy declaration => do
      let value ← evaluate fuel scope value
      ofStep (Evaluation.bindName scope name value policy declaration)
      return value
    | .getMember object member => do
      let object ← evaluate fuel scope object
      ofStep (Evaluation.consult (·.getMember object member))
    | .setMember object member value => do
      let object ← evaluate fuel scope object
      let value ← evaluate fuel scope value
      ofStep (Evaluation.update (·.setMember object member value))
      return value
    | .getIndex object index => do
      let object ← evaluate fuel scope object
      let index ← evaluate fuel scope index
      ofStep (Evaluation.consult (·.getIndex object index))
    | .setIndex object index value => do
      let object ← evaluate fuel scope object
      let index ← evaluate fuel scope index
      let value ← evaluate fuel scope value
      ofStep (Evaluation.update (·.setIndex object index value))
      return value
    | .call callee arguments => do
      let callee ← evaluate fuel scope callee
      let arguments ← evaluateAll fuel scope arguments
      call fuel callee arguments
    | .createList elements => do
      let elements ← evaluateAll fuel scope elements
      ofStep (Evaluation.allocate (·.newList elements))
    | .binary .both left right => do
      if (← evaluate fuel scope left).isTruthy then
        return .bool (← evaluate fuel scope right).isTruthy
      else return .bool false
    | .binary .either left right => do
      if (← evaluate fuel scope left).isTruthy then return .bool true
      else return .bool (← evaluate fuel scope right).isTruthy
    | .binary operator left right => do
      let left ← evaluate fuel scope left
      let right ← evaluate fuel scope right
      ofStep (Evaluation.consult (·.applyBinary operator left right))
    | .unary operator operand => do
      let operand ← evaluate fuel scope operand
      ofStep (Evaluation.consult fun _ => operand.applyUnary operator)
    | .stackPush inner => do
      let value ← evaluate fuel scope inner
      ofStep (Evaluation.setAside value)
      return value
    | .stackPop inner => do
      let _ ← evaluate fuel scope inner
      ofStep Evaluation.takeBack
    | .function name parameters body =>
      ofStep (Evaluation.allocate (·.newFunction (.closure name parameters body scope)))
    | .giveBack _ | .ifThen _ _ | .ifThenElse _ _ _ | .block _ => throw .statementAsValue

/-- Evaluate operations from the first to the last, with the open calls counted. -/
def evaluateAll (fuel : Nat) (scope : ScopeId) (operations : List Operation) :
    Metered (List Value) :=
  match fuel with
  | 0 => outOfFuel
  | fuel + 1 =>
    match operations with
    | [] => return []
    | operation :: rest => do
      let value ← evaluate fuel scope operation
      let values ← evaluateAll fuel scope rest
      return value :: values

/-- Execute an operation as a statement, with the open calls counted. -/
def execute (fuel : Nat) (scope : ScopeId) (operation : Operation) : Metered Completion :=
  match fuel with
  | 0 => outOfFuel
  | fuel + 1 =>
    match operation with
    | .giveBack value => do return .returned (← evaluate fuel scope value)
    | .block body => executeAll fuel scope .null body
    | .ifThen condition consequence => do
      if (← evaluate fuel scope condition).isTruthy then executeAll fuel scope .null consequence
      else return .finished .null
    | .ifThenElse condition consequence alternative => do
      if (← evaluate fuel scope condition).isTruthy then executeAll fuel scope .null consequence
      else executeAll fuel scope .null alternative
    | operation => do return .finished (← evaluate fuel scope operation)

/-- Execute statements until one of them leaves, with the open calls counted. -/
def executeAll (fuel : Nat) (scope : ScopeId) (before : Value) (operations : List Operation) :
    Metered Completion :=
  match fuel with
  | 0 => outOfFuel
  | fuel + 1 =>
    match operations with
    | [] => return .finished before
    | operation :: rest => do
      match ← execute fuel scope operation with
      | .finished value => executeAll fuel scope value rest
      | .returned value => return .returned value

/-- Call a value with arguments. A closure is refused if as many calls are open as may be. -/
def call (fuel : Nat) (callee : Value) (arguments : List Value) : Metered Value :=
  match fuel with
  | 0 => outOfFuel
  | fuel + 1 => do
    match ← ofStep (Evaluation.calledFunction callee) with
    | .builtin which =>
      ofStep (Evaluation.consult fun _ => which.checkArity arguments.length)
      ofStep (which.apply arguments)
    | .closure _ parameters body outer =>
      if (← openCalls) < maxDepth then
        let scope ← ofStep (Evaluation.allocate (·.enterCall outer parameters arguments))
        return (← inCall (executeAll fuel scope .null body)).callValue
      else throw .callsTooDeep

end

/-- Run a program in a scope, with the open calls counted from none. -/
def run (fuel : Nat) (program : Program) (scope : ScopeId) : Metered Value := do
  fun (machine, _) => some (.ok (), machine, ⟨0, 0⟩)
  ofStep Evaluation.clearStack
  return (← executeAll fuel scope .null program.body).value

/-! ## Agreement with evaluation -/

/-- A step that is followed by another runs first, and a failure of it is final. -/
theorem bind_metered_apply (step : Metered α) (next : α → Metered β) (state : Machine × Meter) :
    (step >>= next) state =
      match step state with
      | some (.ok result, after) => next result after
      | some (.error fault, after) => some (.error fault, after)
      | none => none := by
  change (step state >>= fun (result, after) => ExceptT.bindCont next result after) = _
  rcases step state with _ | ⟨_ | _, _⟩ <;> rfl

/-- With enough fuel, a counted step that starts inside a number of calls does what another step
does and ends inside as many calls. In between, no more calls are open than may be. -/
def Follows (depth : Nat) (metered : Nat → Metered α) (step : Evaluation α) : Prop :=
  ∀ (machine : Machine) (before : Nat), ∃ enough after : Nat,
    after ≤ max before maxDepth ∧
      ∀ fuel ≥ enough, metered fuel (machine, ⟨depth, before⟩) =
        some ((step machine).1, (step machine).2, ⟨depth, after⟩)

namespace Follows

variable {depth : Nat}
variable {metered : Nat → Metered α} {step : Evaluation α}

/-- Steps in sequence. Fuel that is enough for both of them is enough. -/
theorem bind {next : Nat → α → Metered β} {following : α → Evaluation β}
    (h : Follows depth metered step)
    (hnext : ∀ value, Follows depth (fun fuel => next fuel value) (following value)) :
    Follows depth (fun fuel => metered fuel >>= next fuel) (step >>= following) := by
  intro machine before
  obtain ⟨enough, between, hbetween, hrun⟩ := h machine before
  rcases hstep : step machine with ⟨fault | value, machine'⟩
  · refine ⟨enough, between, hbetween, ?_⟩
    intro fuel hfuel
    simp only [bind_metered_apply, hrun fuel hfuel, bind_apply, hstep]
  · obtain ⟨enough', after, hafter, hrun'⟩ := hnext value machine' between
    refine ⟨max enough enough', after, by omega, ?_⟩
    intro fuel hfuel
    have hrun := hrun fuel (by omega)
    simp only [bind_metered_apply, hrun, bind_apply, hstep]
    exact hrun' fuel (by omega)

/-- A step that opens no calls needs no fuel. -/
theorem ofStep (step : Evaluation α) : Follows depth (fun _ => Metered.ofStep step) step := by
  intro machine before
  exact ⟨0, before, Nat.le_max_left _ _, fun _ _ => rfl⟩

/-- Returning opens no calls. -/
theorem pure (value : α) : Follows depth (fun _ => Pure.pure value) (Pure.pure value) :=
  ofStep (Pure.pure value)

/-- Failing opens no calls. -/
theorem throw (fault : Fault) :
    Follows depth (fun _ => (MonadExcept.throw fault : Metered α)) (MonadExcept.throw fault) :=
  ofStep (MonadExcept.throw fault)

/-- What is done with the fuel that is left after one unit of it has been spent. -/
theorem spend (h : Follows depth (fun fuel => metered (fuel + 1)) step) :
    Follows depth metered step := by
  intro machine before
  obtain ⟨enough, after, hafter, hrun⟩ := h machine before
  refine ⟨enough + 1, after, hafter, ?_⟩
  intro fuel hfuel
  obtain ⟨rest, rfl⟩ : ∃ rest, fuel = rest + 1 := ⟨fuel - 1, by omega⟩
  exact hrun rest (by omega)

/-- A body that is run inside one more call gives the count back. -/
theorem inCall (hdepth : depth < maxDepth) (h : Follows (depth + 1) metered step) :
    Follows depth (fun fuel => Metered.inCall (metered fuel)) step := by
  intro machine before
  obtain ⟨enough, after, hafter, hrun⟩ := h machine (max before (depth + 1))
  refine ⟨enough, after, by omega, ?_⟩
  intro fuel hfuel
  simp only [Metered.inCall, Meter.enter, hrun fuel hfuel, Meter.leave, Nat.add_sub_cancel]

/-- What is decided from the number of open calls is decided from the number that it starts in. -/
theorem ofOpenCalls {next : Nat → Nat → Metered α}
    (h : Follows depth (fun fuel => next fuel depth) step) :
    Follows depth (fun fuel => openCalls >>= next fuel) step := h

end Follows

/-- An operator that looks at both of its operands is applied to their values. -/
theorem follows_binary {operator : BinaryOperator} {depth : Nat} {scope : ScopeId}
    {left right : Operation}
    (hleft : Follows depth (fun fuel => evaluate fuel scope left)
      (TreeScript.evaluate depth scope left))
    (hright : Follows depth (fun fuel => evaluate fuel scope right)
      (TreeScript.evaluate depth scope right)) :
    Follows depth (fun fuel => evaluate (fuel + 1) scope (.binary operator left right))
      (TreeScript.evaluate depth scope (.binary operator left right)) := by
  cases operator with
  | both =>
    rw [TreeScript.evaluate]
    refine hleft.bind fun left => ?_
    by_cases h : left.isTruthy
    · simp only [if_pos h]
      exact hright.bind fun right => .pure _
    · simp only [if_neg h]
      exact .pure _
  | either =>
    rw [TreeScript.evaluate]
    refine hleft.bind fun left => ?_
    by_cases h : left.isTruthy
    · simp only [if_pos h]
      exact .pure _
    · simp only [if_neg h]
      exact hright.bind fun right => .pure _
  | _ =>
    rw [TreeScript.evaluate]
    · exact hleft.bind fun left => hright.bind fun right => .ofStep _
    all_goals
      intro heq
      cases heq

mutual

/-- The counted run of an operation follows its evaluation. -/
theorem evaluate_follows (depth : Nat) (scope : ScopeId) (operation : Operation) :
    Follows depth (fun fuel => evaluate fuel scope operation)
      (TreeScript.evaluate depth scope operation) := by
  apply Follows.spend
  cases operation with
  | literal value => rw [TreeScript.evaluate]; exact .pure _
  | getVariable name => rw [TreeScript.evaluate]; exact .ofStep (Evaluation.lookUp scope name)
  | setVariable name value policy declaration =>
    rw [TreeScript.evaluate]
    refine (evaluate_follows depth scope value).bind fun value => ?_
    exact (Follows.ofStep _).bind fun _ => .pure value
  | getMember object member =>
    rw [TreeScript.evaluate]
    exact (evaluate_follows depth scope object).bind fun object => .ofStep _
  | setMember object member value =>
    rw [TreeScript.evaluate]
    refine (evaluate_follows depth scope object).bind fun object => ?_
    refine (evaluate_follows depth scope value).bind fun value => ?_
    exact (Follows.ofStep _).bind fun _ => .pure value
  | getIndex object index =>
    rw [TreeScript.evaluate]
    refine (evaluate_follows depth scope object).bind fun object => ?_
    exact (evaluate_follows depth scope index).bind fun index => .ofStep _
  | setIndex object index value =>
    rw [TreeScript.evaluate]
    refine (evaluate_follows depth scope object).bind fun object => ?_
    refine (evaluate_follows depth scope index).bind fun index => ?_
    refine (evaluate_follows depth scope value).bind fun value => ?_
    exact (Follows.ofStep _).bind fun _ => .pure value
  | call callee arguments =>
    rw [TreeScript.evaluate]
    refine (evaluate_follows depth scope callee).bind fun callee => ?_
    refine (evaluateAll_follows depth scope arguments).bind fun arguments => ?_
    exact call_follows depth callee arguments
  | createList elements =>
    rw [TreeScript.evaluate]
    exact (evaluateAll_follows depth scope elements).bind fun elements => .ofStep _
  | binary operator left right =>
    exact follows_binary (evaluate_follows depth scope left) (evaluate_follows depth scope right)
  | unary operator operand =>
    rw [TreeScript.evaluate]
    exact (evaluate_follows depth scope operand).bind fun operand => .ofStep _
  | stackPush inner =>
    rw [TreeScript.evaluate]
    refine (evaluate_follows depth scope inner).bind fun value => ?_
    exact (Follows.ofStep _).bind fun _ => .pure value
  | stackPop inner =>
    rw [TreeScript.evaluate]
    exact (evaluate_follows depth scope inner).bind fun _ => .ofStep _
  | function name parameters body =>
    rw [TreeScript.evaluate]
    exact .ofStep (Evaluation.allocate (·.newFunction (.closure name parameters body scope)))
  | giveBack value => rw [TreeScript.evaluate]; exact .throw _
  | ifThen condition consequence => rw [TreeScript.evaluate]; exact .throw _
  | ifThenElse condition consequence alternative => rw [TreeScript.evaluate]; exact .throw _
  | block body => rw [TreeScript.evaluate]; exact .throw _
termination_by (maxDepth - depth, sizeOf operation)

/-- The counted run of operands follows their evaluation. -/
theorem evaluateAll_follows (depth : Nat) (scope : ScopeId) (operations : List Operation) :
    Follows depth (fun fuel => evaluateAll fuel scope operations)
      (TreeScript.evaluateAll depth scope operations) := by
  apply Follows.spend
  cases operations with
  | nil => rw [TreeScript.evaluateAll]; exact .pure _
  | cons operation rest =>
    rw [TreeScript.evaluateAll]
    refine (evaluate_follows depth scope operation).bind fun value => ?_
    exact (evaluateAll_follows depth scope rest).bind fun values => .pure _
termination_by (maxDepth - depth, sizeOf operations)

/-- The counted run of a statement follows its execution. -/
theorem execute_follows (depth : Nat) (scope : ScopeId) (operation : Operation) :
    Follows depth (fun fuel => execute fuel scope operation)
      (TreeScript.execute depth scope operation) := by
  apply Follows.spend
  cases operation with
  | giveBack value =>
    rw [TreeScript.execute]
    exact (evaluate_follows depth scope value).bind fun value => .pure _
  | block body =>
    rw [TreeScript.execute]
    exact executeAll_follows depth scope .null body
  | ifThen condition consequence =>
    rw [TreeScript.execute]
    refine (evaluate_follows depth scope condition).bind fun condition => ?_
    by_cases h : condition.isTruthy
    · simp only [if_pos h]
      exact executeAll_follows depth scope .null consequence
    · simp only [if_neg h]
      exact .pure _
  | ifThenElse condition consequence alternative =>
    rw [TreeScript.execute]
    refine (evaluate_follows depth scope condition).bind fun condition => ?_
    by_cases h : condition.isTruthy
    · simp only [if_pos h]
      exact executeAll_follows depth scope .null consequence
    · simp only [if_neg h]
      exact executeAll_follows depth scope .null alternative
  | _ =>
    rw [TreeScript.execute]
    · exact (evaluate_follows depth scope _).bind fun value => .pure _
    all_goals nofun
termination_by (maxDepth - depth, sizeOf operation + 1)

/-- The counted run of statements in a row follows their execution. -/
theorem executeAll_follows (depth : Nat) (scope : ScopeId) (before : Value)
    (operations : List Operation) :
    Follows depth (fun fuel => executeAll fuel scope before operations)
      (TreeScript.executeAll depth scope before operations) := by
  apply Follows.spend
  cases operations with
  | nil => rw [TreeScript.executeAll]; exact .pure _
  | cons operation rest =>
    rw [TreeScript.executeAll]
    refine (execute_follows depth scope operation).bind fun completion => ?_
    cases completion with
    | finished value => exact executeAll_follows depth scope value rest
    | returned value => exact .pure _
termination_by (maxDepth - depth, sizeOf operations + 1)

/-- The counted run of a call follows the call. -/
theorem call_follows (depth : Nat) (callee : Value) (arguments : List Value) :
    Follows depth (fun fuel => call fuel callee arguments)
      (TreeScript.call depth callee arguments) := by
  apply Follows.spend
  rw [TreeScript.call]
  refine (Follows.ofStep _).bind fun callable => ?_
  cases callable with
  | builtin which => exact (Follows.ofStep _).bind fun _ => .ofStep _
  | closure name parameters body outer =>
    apply Follows.ofOpenCalls
    by_cases h : depth < maxDepth
    · simp only [if_pos h]
      refine (Follows.ofStep _).bind fun inner => ?_
      refine (Follows.inCall h (executeAll_follows (depth + 1) inner .null body)).bind fun _ => ?_
      exact .pure _
    · simp only [if_neg h]
      exact .throw _
termination_by (maxDepth - depth, 0)

end

/-- A program is run inside no calls, whatever the count was before. -/
theorem run_follows (program : Program) (scope : ScopeId) (machine : Machine) (meter : Meter) :
    ∃ enough deepest : Nat, deepest ≤ maxDepth ∧
      ∀ fuel ≥ enough, run fuel program scope (machine, meter) =
        some ((program.run scope machine).1, (program.run scope machine).2, ⟨0, deepest⟩) := by
  have hbody : Follows 0
      (fun fuel => do
        ofStep Evaluation.clearStack
        return (← executeAll fuel scope .null program.body).value)
      (program.run scope) :=
    (Follows.ofStep _).bind fun _ =>
      (executeAll_follows 0 scope .null program.body).bind fun _ => .pure _
  obtain ⟨enough, deepest, hdeepest, hrun⟩ := hbody machine 0
  exact ⟨enough, deepest, by simpa using hdeepest, hrun⟩

/-- When as many calls are open as may be, a closure is refused and nothing is changed. -/
theorem call_at_maxDepth {machine : Machine} {function : FunctionId} {name : String}
    {parameters : List String} {body : List Operation} {outer : ScopeId}
    (h : machine.heap.callable? function = some (.closure name parameters body outer))
    (fuel : Nat) (arguments : List Value) (deepest : Nat) :
    call (fuel + 1) (.function function) arguments (machine, ⟨maxDepth, deepest⟩) =
      some (.error .callsTooDeep, machine, ⟨maxDepth, deepest⟩) := by
  have hfound : ofStep (Evaluation.calledFunction (.function function))
      (machine, ⟨maxDepth, deepest⟩) =
        some (.ok (.closure name parameters body outer), machine, ⟨maxDepth, deepest⟩) := by
    simp [ofStep, Evaluation.calledFunction, Evaluation.consult, h]
  rw [call, bind_metered_apply, hfound]
  rfl

/-- Every run of every program ends, on every machine and whatever the count of open calls was: fuel
does not run out, and more of it changes nothing. No more than 256 calls are open at a time, each
call gives the count back as it found it whether it succeeds or fails, and a closure that is called
inside 256 calls fails with a range error and leaves the machine as it is. -/
theorem run_ends_within_depth (program : Program) (scope : ScopeId) (machine : Machine)
    (meter : Meter) :
    (∃ enough deepest : Nat, deepest ≤ 256 ∧
      ∀ fuel ≥ enough, run fuel program scope (machine, meter) =
        some ((program.run scope machine).1, (program.run scope machine).2, ⟨0, deepest⟩)) ∧
    (∀ (callee : Value) (arguments : List Value),
      ∃ enough deepest : Nat, deepest ≤ max meter.deepest 256 ∧
        ∀ fuel ≥ enough, call fuel callee arguments (machine, meter) =
          some ((TreeScript.call meter.depth callee arguments machine).1,
            (TreeScript.call meter.depth callee arguments machine).2, ⟨meter.depth, deepest⟩)) ∧
    (∀ (function : FunctionId) (name : String) (parameters : List String) (body : List Operation)
      (outer : ScopeId) (arguments : List Value) (fuel deepest : Nat),
      machine.heap.callable? function = some (.closure name parameters body outer) →
        call (fuel + 1) (.function function) arguments (machine, ⟨256, deepest⟩) =
          some (.error .callsTooDeep, machine, ⟨256, deepest⟩)) ∧
    Fault.callsTooDeep.message = "RangeError: Maximum call stack size exceeded" := by
  refine ⟨run_follows program scope machine meter, ?_, ?_, rfl⟩
  · intro callee arguments
    exact call_follows meter.depth callee arguments machine meter.deepest
  · intro function name parameters body outer arguments fuel deepest hclosure
    exact call_at_maxDepth hclosure fuel arguments deepest

/-- A machine on which `function f() { f(); }` has been run. -/
def selfCaller : Machine :=
  let (globals, scopes) := Scopes.empty.new
  let body := [.call (.getVariable "f") []]
  let (function, heap) := { Heap.empty with scopes }.newFunction (.closure "f" [] body globals)
  ⟨heap.define globals "f" function, [], #[]⟩

/-- A program that calls the function ends, and inside 256 calls the function is refused. -/
theorem run_ends_within_depth_of_selfCaller :
    (∃ enough deepest : Nat, deepest ≤ 256 ∧
      ∀ fuel ≥ enough, run fuel ⟨[.call (.getVariable "f") []]⟩ ⟨0⟩ (selfCaller, ⟨9, 9⟩) =
        some ((Program.run ⟨[.call (.getVariable "f") []]⟩ ⟨0⟩ selfCaller).1,
          (Program.run ⟨[.call (.getVariable "f") []]⟩ ⟨0⟩ selfCaller).2, ⟨0, deepest⟩)) ∧
    call 1 (.function ⟨0⟩) [] (selfCaller, ⟨256, 256⟩) =
      some (.error .callsTooDeep, selfCaller, ⟨256, 256⟩) := by
  obtain ⟨hrun, -, hdeep, -⟩ :=
    run_ends_within_depth ⟨[.call (.getVariable "f") []]⟩ ⟨0⟩ selfCaller ⟨9, 9⟩
  exact ⟨hrun, hdeep ⟨0⟩ "f" [] _ ⟨0⟩ [] 0 256 rfl⟩

end Metered

end TreeScript
