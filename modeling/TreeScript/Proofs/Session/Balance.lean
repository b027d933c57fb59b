import TreeScript.Proofs.Operation.Parts
import TreeScript.Proofs.Session.Safety
import TreeScript.Proofs.Surface.Lowered

/-!
# Programs leave the value stack as they find it

What lowering makes of a statement or an expression takes back every value it sets aside, as long
as it succeeds. If it fails in between, the values it has set aside stay on top of those that were
there before. Either way the values below are not looked at, so the result, the heap and the output
are the same on every stack. A call does not clear the stack, but for the same reason nothing that
earlier calls have left on it makes a difference.
-/

namespace TreeScript

namespace Operation

/-- What the place that an operation writes is reached through. -/
def approach : Operation → List Operation
  | setMember object _ _ => [object]
  | setIndex object index _ => [object, index]
  | _ => []

/-- The operations that an operation is put together from: its operands and the elements of its
bodies. To step a place and yield its old value is one operation, put together from what the place
is reached through; what happens between setting that value aside and taking it back is not an
operation of the program. -/
def parts : Operation → List Operation
  | stackPop written => written.approach
  | operation => operation.operands ++ operation.bodies.flatten

/-- An operation is another one or stands in it, at whatever depth. -/
inductive Within (operation : Operation) : Operation → Prop
  | self : Within operation operation
  | inside {part outer : Operation} : part ∈ outer.parts → Within operation part →
      Within operation outer

section

variable {operation part : Operation}

/-- What the written place is reached through leaves nothing set aside. -/
theorem Leaves.leaves_approach {count : Nat} (h : operation.Leaves count)
    (hpart : part ∈ operation.approach) : part.Leaves 0 := by
  cases h with
  | setMember _ hobject _ => rwa [List.mem_singleton.mp hpart]
  | setIndex hobject hindex _ =>
    rcases List.mem_pair.mp hpart with rfl | rfl
    · exact hobject
    · exact hindex
  | _ => cases hpart

/-- The operands of a value leave nothing set aside, unless a value is taken back above them. -/
theorem Leaves.leaves_operand (h : operation.Leaves 0)
    (hpop : ∀ written, operation ≠ .stackPop written) (hpart : part ∈ operation.operands) :
    part.Leaves 0 := by
  cases h with
  | literal | getVariable | function => cases hpart
  | setVariable _ _ _ hvalue => rwa [List.mem_singleton.mp hpart]
  | getMember _ hobject => rwa [List.mem_singleton.mp hpart]
  | unary _ hoperand => rwa [List.mem_singleton.mp hpart]
  | setMember _ hobject hvalue =>
    rcases List.mem_pair.mp hpart with rfl | rfl
    · exact hobject
    · exact hvalue
  | getIndex hobject hindex =>
    rcases List.mem_pair.mp hpart with rfl | rfl
    · exact hobject
    · exact hindex
  | binary _ hleft hright =>
    rcases List.mem_pair.mp hpart with rfl | rfl
    · exact hleft
    · exact hright
  | setIndex hobject hindex hvalue =>
    rcases List.mem_cons.mp hpart with rfl | hpart
    · exact hobject
    · rcases List.mem_pair.mp hpart with rfl | rfl
      · exact hindex
      · exact hvalue
  | call hcallee harguments =>
    rcases List.mem_cons.mp hpart with rfl | hpart
    · exact hcallee
    · exact harguments part hpart
  | createList helements => exact helements part hpart
  | stackPop _ => exact absurd rfl (hpop _)

/-- The operands of what can be run leave nothing set aside. -/
theorem Runs.leaves_operand (h : operation.Runs) (hpop : ∀ written, operation ≠ .stackPop written)
    (hpart : part ∈ operation.operands) : part.Leaves 0 := by
  cases h with
  | value hleaves => exact hleaves.leaves_operand hpop hpart
  | giveBack hvalue => rwa [List.mem_singleton.mp hpart]
  | ifThen hcondition _ => rwa [List.mem_singleton.mp hpart]
  | ifThenElse hcondition _ _ => rwa [List.mem_singleton.mp hpart]
  | block _ => cases hpart

/-- The elements of the bodies of what can be run can be run. -/
theorem Runs.runs_body {body : List Operation} (h : operation.Runs)
    (hbody : body ∈ operation.bodies)
    (hpart : part ∈ body) : part.Runs := by
  cases h with
  | value hleaves =>
    cases hleaves with
    | function _ _ hruns => exact hruns part (List.mem_singleton.mp hbody ▸ hpart)
    | _ => cases hbody
  | giveBack => cases hbody
  | ifThen _ hconsequence => exact hconsequence part (List.mem_singleton.mp hbody ▸ hpart)
  | ifThenElse _ hconsequence halternative =>
    rcases List.mem_pair.mp hbody with rfl | rfl
    · exact hconsequence part hpart
    · exact halternative part hpart
  | block hruns => exact hruns part (List.mem_singleton.mp hbody ▸ hpart)

/-- What an operation that can be run is put together from can be run. -/
theorem Runs.runs_part (h : operation.Runs) (hpart : part ∈ operation.parts) : part.Runs := by
  fun_cases parts operation with
  | case1 written =>
    cases h with
    | value hleaves =>
      cases hleaves with
      | stackPop hwritten => exact .value (hwritten.leaves_approach hpart)
  | case2 operation hpop =>
    rw [parts.eq_2 _ hpop] at hpart
    rcases List.mem_append.mp hpart with hoperand | hbody
    · exact .value (h.leaves_operand hpop hoperand)
    · obtain ⟨body, hbody, hpart⟩ := List.mem_flatten.mp hbody
      exact h.runs_body hbody hpart

end

/-- Whatever stands in an operation that can be run can be run. -/
theorem Within.runs {operation outer : Operation} (h : operation.Within outer)
    (houter : outer.Runs) : operation.Runs := by
  induction h with
  | self => exact houter
  | inside hpart _ ih => exact ih (houter.runs_part hpart)

end Operation

/-- The statements and expressions of a program, at whatever depth. -/
def Program.Has (program : Program) (operation : Operation) : Prop :=
  ∃ statement ∈ program.body, operation.Within statement

/-- A closure made of a function that some program from a tree defines, or a builtin. -/
def Callable.IsCompiled : Callable → Prop
  | closure name parameters body _ =>
    ∃ tree program, Program.ofTree tree = .ok program ∧
      program.Has (.function name parameters body)
  | builtin _ => True

/-- All closures in the heap have been compiled. -/
def Heap.IsCompiled (heap : Heap) : Prop := ∀ callable ∈ heap.functions, callable.IsCompiled

/-- What a program has runs. -/
theorem Program.Has.runs {program : Program} {operation : Operation} {tree : Tree}
    (h : program.Has operation) (hprogram : Program.ofTree tree = .ok program) :
    operation.Runs := by
  obtain ⟨statement, hstatement, hwithin⟩ := h
  exact hwithin.runs (Program.areStatements_of_ofTree hprogram statement hstatement).runs

/-- Compiled heaps are sound. -/
theorem Heap.IsCompiled.isSound {heap : Heap} (h : heap.IsCompiled) : heap.IsSound := by
  intro callable hcallable
  cases callable with
  | builtin which => trivial
  | closure name parameters body scope =>
    obtain ⟨tree, program, hprogram, hhas⟩ := h _ hcallable
    intro operation hoperation
    exact (hhas.runs hprogram).runs_body (List.mem_singleton_self body) hoperation

namespace Evaluation

variable {α : Type}

/-- On a heap, a step that succeeds gives the value stack back as it was, and one that fails leaves
it below what it has set aside. In all else it does the same on every stack. -/
def Restores (heap : Heap) (output : Array String) (step : Evaluation α) : Prop :=
  ∃ (result : Except Fault α) (heap' : Heap) (output' : Array String) (residue : List Value),
    (∀ stack, step ⟨heap, stack, output⟩ = (result, ⟨heap', residue ++ stack, output'⟩)) ∧
      ∀ value, result = .ok value → residue = []

/-- What sets nothing aside restores the stack. -/
theorem SetsAside.restores {step : Evaluation α} (h : SetsAside 0 step) {heap : Heap}
    (hheap : heap.IsSound) (output : Array String) : Restores heap output step := by
  obtain ⟨result, heap', output', residue, hrun, -, hresult⟩ := h heap output hheap
  refine ⟨result, heap', output', residue, hrun, ?_⟩
  rintro value rfl
  exact List.eq_nil_of_length_eq_zero hresult

/-- A failure restores the stack. -/
theorem restores_throw (heap : Heap) (output : Array String) (fault : Fault) :
    Restores heap output (MonadExcept.throw fault : Evaluation α) := by
  refine ⟨.error fault, heap, output, [], fun _ => rfl, ?_⟩
  intro value hvalue
  cases hvalue

end Evaluation

open Evaluation

/-- A statement in the place of an expression is refused before anything is done. -/
theorem evaluate_restores {operation : Operation} (h : operation.Runs) (depth : Nat)
    (scope : ScopeId) {heap : Heap} (hheap : heap.IsSound) (output : Array String) :
    Restores heap output (evaluate depth scope operation) := by
  cases h with
  | value hleaves =>
    exact (evaluate_setsAside depth scope operation 0 hleaves).restores hheap output
  | giveBack | ifThen | ifThenElse | block =>
    rw [evaluate]
    exact restores_throw heap output _

namespace Machine

/-- The machine after values have been called on it one after the other. -/
def afterCalls (machine : Machine) : List (Value × List Value) → Machine
  | [] => machine
  | (callee, arguments) :: rest => (call 0 callee arguments machine).2.afterCalls rest

/-- Calls keep the heap sound, whether they succeed or fail. -/
theorem isSound_afterCalls {machine : Machine} (h : machine.heap.IsSound)
    (calls : List (Value × List Value)) : (machine.afterCalls calls).heap.IsSound := by
  induction calls generalizing machine with
  | nil => exact h
  | cons first rest ih =>
    obtain ⟨callee, arguments⟩ := first
    obtain ⟨result, heap, output, aside, hrun, hheap, -⟩ :=
      call_setsAside 0 callee arguments machine.heap machine.output h
    refine ih ?_
    rw [show call 0 callee arguments machine = _ from hrun machine.stack]
    exact hheap

end Machine

/-- Every statement and expression of a program that comes from a tree, on every heap whose closures
are compiled, gives the value stack back if it succeeds, leaves it below what it has set aside if it
fails, and does the same on every stack. So does every call, whatever earlier calls have left on
the stack. -/
theorem stack_restored :
    (∀ (tree : Tree) (program : Program) (operation : Operation),
      Program.ofTree tree = .ok program → program.Has operation →
      ∀ (depth : Nat) (scope : ScopeId) (heap : Heap) (output : Array String), heap.IsCompiled →
        Restores heap output (evaluate depth scope operation) ∧
        Restores heap output (execute depth scope operation)) ∧
    ∀ machine : Machine, machine.heap.IsCompiled →
      ∀ (calls : List (Value × List Value)) (callee : Value) (arguments : List Value),
        Restores (machine.afterCalls calls).heap (machine.afterCalls calls).output
          (call 0 callee arguments) := by
  refine ⟨?_, ?_⟩
  · intro tree program operation hprogram hhas depth scope heap output hheap
    have hruns := hhas.runs hprogram
    exact ⟨evaluate_restores hruns depth scope hheap.isSound output,
      (execute_setsAside depth scope operation hruns).restores hheap.isSound output⟩
  · intro machine hmachine calls callee arguments
    have hsound := machine.isSound_afterCalls hmachine.isSound calls
    exact (call_setsAside 0 callee arguments).restores hsound _

/-- `function f(x) { x++; }` -/
def stepping : Surface.Script :=
  ⟨[.function "f" ["x"] [.expression (.mk (.stepAfter (.name "x") .up) []) .mark]]⟩

/-- The program that the script means. -/
def steppingProgram : Program :=
  ⟨[.setVariable "f" (.function "f" ["x"] [(Target.named "x").stepAfter .add]) .unconstrained true]⟩

/-- A machine that holds the function. -/
def steppingMachine : Machine :=
  let (globals, scopes) := Scopes.empty.new
  let body := [(Target.named "x").stepAfter .add]
  let (_, heap) := { Heap.empty with scopes }.newFunction (.closure "f" ["x"] body globals)
  ⟨heap, [], #[]⟩

/-- The stepping program. -/
theorem ofTree_stepping : Program.ofTree stepping.tree = .ok steppingProgram :=
  stepping.accords_ofTree

/-- Its functions are compiled. -/
theorem isCompiled_steppingMachine : steppingMachine.heap.IsCompiled := by
  intro callable hcallable
  have hfunctions : steppingMachine.heap.functions =
      #[.closure "f" ["x"] [(Target.named "x").stepAfter .add] ⟨0⟩] := rfl
  rw [hfunctions, Array.mem_singleton] at hcallable
  rw [hcallable]
  exact ⟨stepping.tree, steppingProgram, ofTree_stepping, _, List.mem_singleton_self _,
    .inside (List.mem_singleton_self _) .self⟩

/-- To step a variable that is null fails with the null set aside. -/
theorem stepAfter_null (machine : Machine) {scope : ScopeId} {name : String}
    (h : machine.heap.scopes.get? scope name = some .null) (depth : Nat) :
    execute depth scope ((Target.named name).stepAfter .add) machine =
      (.error (.operands .add .null .int), { machine with stack := .null :: machine.stack }) := by
  have hpush : evaluate depth scope (.stackPush (.getVariable name)) machine =
      (.ok .null, { machine with stack := .null :: machine.stack }) := by
    have hread : lookUp scope name machine = (.ok .null, machine) := by
      simp only [lookUp, consult, h]
    rw [evaluate, evaluate, bind_apply, hread]
    rfl
  simp only [Target.stepAfter, Target.read, Target.write, execute, evaluate, bind_apply] at hpush ⊢
  rw [hpush, Target.one, evaluate]
  rfl

/-- A call with a null leaves the null. -/
theorem stack_call_null : (call 0 (.function ⟨0⟩) [.null] steppingMachine).2.stack = [.null] := by
  let entered := steppingMachine.heap.enterCall ⟨0⟩ ["x"] [.null]
  have hnull : entered.2.scopes.get? entered.1 "x" = some .null := by
    with_unfolding_all rfl
  have hcall : call 0 (.function ⟨0⟩) [.null] steppingMachine =
      (executeAll 1 entered.1 .null [(Target.named "x").stepAfter .add] >>= fun completion =>
        pure completion.callValue : Evaluation Value) ⟨entered.2, [], #[]⟩ :=
    call_closure rfl (by decide) [.null]
  rw [hcall, executeAll, bind_apply, bind_apply, stepAfter_null ⟨entered.2, [], #[]⟩ hnull 1]

/-- The step in the function gives every stack back. A call with a null fails and leaves that null
on the stack, and the next call keeps it there. -/
theorem stack_restored_around_failed_step :
    Program.ofTree stepping.tree = .ok steppingProgram ∧
    steppingProgram.Has ((Target.named "x").stepAfter .add) ∧
    steppingMachine.heap.IsCompiled ∧
    Restores steppingMachine.heap #[] (execute 1 ⟨0⟩ ((Target.named "x").stepAfter .add)) ∧
    (call 0 (.function ⟨0⟩) [.null] steppingMachine).2.stack = [.null] ∧
    [.null] <:+ (call 0 (.function ⟨0⟩) [.int 1]
      (call 0 (.function ⟨0⟩) [.null] steppingMachine).2).2.stack := by
  have hhas : steppingProgram.Has ((Target.named "x").stepAfter .add) :=
    ⟨_, List.mem_singleton_self _,
      .inside (List.mem_singleton_self _) (.inside (List.mem_singleton_self _) .self)⟩
  have hstep := stack_restored.1 _ _ _ ofTree_stepping hhas 1 ⟨0⟩ steppingMachine.heap #[]
    isCompiled_steppingMachine
  obtain ⟨result, heap, output, residue, hrun, -⟩ := stack_restored.2 steppingMachine
    isCompiled_steppingMachine [(.function ⟨0⟩, [.null])] (.function ⟨0⟩) [.int 1]
  have hagain : call 0 (.function ⟨0⟩) [.int 1]
      (call 0 (.function ⟨0⟩) [.null] steppingMachine).2 = _ := hrun _
  refine ⟨ofTree_stepping, hhas, isCompiled_steppingMachine, hstep.2, stack_call_null, ?_⟩
  rw [hagain, stack_call_null]
  exact List.suffix_append residue [.null]

end TreeScript
