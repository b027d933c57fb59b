import TreeScript.Proofs.Session.Balance

/-!
# Programs run in pieces

Statements that follow one another can be run in two goes, the second on the machine that the first
has left. Between two programs the value stack is cleared. A program that comes from a tree has left
nothing on it, so one run of all the statements gives what the two runs do, in that the second takes
over unless the first has failed or was left.

That depends on the closures in the heap. One that sets a value aside and keeps it there is cut off
from one that takes it back, if they are called in different runs.
-/

namespace TreeScript

open Evaluation

/-- Statements run one after the other until one of them leaves, also across the seam of two
lists. -/
theorem executeAll_append (depth : Nat) (scope : ScopeId) (before : Value)
    (first second : List Operation) :
    executeAll depth scope before (first ++ second) =
      executeAll depth scope before first >>= fun
        | .finished value => executeAll depth scope value second
        | .returned value => pure (.returned value) := by
  induction first generalizing before with
  | nil => rw [List.nil_append, executeAll.eq_def depth scope before [], pure_bind]
  | cons operation rest ih =>
    rw [List.cons_append, executeAll, executeAll, bind_assoc]
    congr 1
    funext completion
    cases completion with
    | finished value => exact ih value
    | returned value => rw [pure_bind]

/-- The value from before counts only if there are no statements. -/
theorem executeAll_before {operations : List Operation} (h : operations ≠ []) (depth : Nat)
    (scope : ScopeId) (before other : Value) :
    executeAll depth scope before operations = executeAll depth scope other operations := by
  cases operations with
  | nil => exact absurd rfl h
  | cons operation rest => rw [executeAll, executeAll]

namespace Program

variable {first second : Program} {scope : ScopeId} {machine : Machine}

/-- How the statements of a program end: the last one is finished, one of them leaves the program,
or one of them fails. -/
def ending (program : Program) (scope : ScopeId) (machine : Machine) : Except Fault Completion :=
  (executeAll 0 scope .null program.body { machine with stack := [] }).1

/-- A run starts from an empty stack and gives the value that the statements end with. -/
theorem run_apply (program : Program) (scope : ScopeId) (machine : Machine) :
    program.run scope machine =
      (executeAll 0 scope .null program.body >>= fun completion => pure completion.value)
        { machine with stack := [] } :=
  rfl

/-- The statements end as the program does. -/
theorem executeAll_of_ending {result : Except Fault Completion}
    (h : first.ending scope machine = result) :
    executeAll 0 scope .null first.body { machine with stack := [] } =
      (result, (first.run scope machine).2) := by
  rw [run_apply, bind_apply, ← h, ending]
  rcases executeAll 0 scope .null first.body { machine with stack := [] } with ⟨_ | _, _⟩ <;> rfl

/-- If the first program ends with a last statement and leaves nothing on the stack, the second one
may as well be part of it. -/
theorem run_append_of_finished {value : Value}
    (h : first.ending scope machine = .ok (.finished value))
    (hstack : (first.run scope machine).2.stack = []) (hsecond : second.body ≠ []) :
    run ⟨first.body ++ second.body⟩ scope machine =
      second.run scope (first.run scope machine).2 := by
  have hcleared : { (first.run scope machine).2 with stack := [] } =
      (first.run scope machine).2 := by
    rw [← hstack]
  rw [run_apply, executeAll_append, bind_assoc, bind_apply, executeAll_of_ending h,
    run_apply second, hcleared]
  simp only [executeAll_before hsecond 0 scope value .null]

/-- If the first program fails or is left, the statements of the second one are not reached. -/
theorem run_append_of_not_finished
    (h : ∀ value, first.ending scope machine ≠ .ok (.finished value)) :
    run ⟨first.body ++ second.body⟩ scope machine = first.run scope machine := by
  rw [run_apply, run_apply, executeAll_append, bind_assoc, bind_apply, bind_apply]
  cases hending : first.ending scope machine with
  | error fault => rw [executeAll_of_ending hending]
  | ok completion =>
    cases completion with
    | finished value => exact absurd hending (h value)
    | returned value =>
      rw [executeAll_of_ending hending]
      rfl

/-- What a tree means leaves nothing on the stack unless it fails. -/
theorem stack_run_of_ok {tree : Tree} {program : Program} {completion : Completion}
    (hprogram : Program.ofTree tree = .ok program) (hheap : machine.heap.IsCompiled)
    (h : program.ending scope machine = .ok completion) :
    (program.run scope machine).2.stack = [] := by
  have hruns : ∀ operation ∈ program.body, operation.Runs := fun operation hoperation =>
    (Program.areStatements_of_ofTree hprogram operation hoperation).runs
  obtain ⟨result, heap, output, residue, hrun, hresidue⟩ :=
    (executeAll_setsAside 0 scope .null program.body hruns).restores hheap.isSound machine.output
  obtain ⟨hresult, hmachine⟩ := Prod.mk.inj ((executeAll_of_ending h).symm.trans (hrun []))
  rw [hmachine, hresidue completion hresult.symm, List.append_nil]

end Program

/-- A program from a tree is run on a machine whose closures are all compiled. If it ends with its
last statement, whatever statements follow may as well be run afterwards, with the same result on
the same machine. If it fails or is left, what follows makes no difference, and that is so on every
machine. -/
theorem run_in_pieces :
    (∀ (tree : Tree) (first second : Program) (scope : ScopeId) (machine : Machine) (value : Value),
      Program.ofTree tree = .ok first → machine.heap.IsCompiled →
      first.ending scope machine = .ok (.finished value) → second.body ≠ [] →
        Program.run ⟨first.body ++ second.body⟩ scope machine =
          second.run scope (first.run scope machine).2) ∧
    ∀ (first second : Program) (scope : ScopeId) (machine : Machine),
      (∀ value, first.ending scope machine ≠ .ok (.finished value)) →
        Program.run ⟨first.body ++ second.body⟩ scope machine = first.run scope machine := by
  refine ⟨?_, ?_⟩
  · intro tree first second scope machine value hfirst hheap hending hsecond
    have hstack := Program.stack_run_of_ok hfirst hheap hending
    exact Program.run_append_of_finished hending hstack hsecond
  · intro first second scope machine hending
    exact Program.run_append_of_not_finished hending

/-- `x = true;` -/
def setting : Surface.Script :=
  ⟨[.expression (.mk (.assign (.name "x") (.constant (.truth true))) []) .mark]⟩

/-- The program that the script means. -/
def settingProgram : Program := ⟨[(Target.named "x").assign (.literal (.bool true))]⟩

/-- `if (true) { return; }` -/
def leavingProgram : Program := ⟨[.ifThen (.literal (.bool true)) [.giveBack (.literal .null)]]⟩

/-- `x;` -/
def readingProgram : Program := ⟨[.getVariable "x"]⟩

/-- A variable is set in one run and read in the next or in the same one. After a branch that leaves
the program, the variable is not read. -/
theorem run_in_pieces_setting :
    Program.ofTree setting.tree = .ok settingProgram ∧
    settingProgram.ending ⟨0⟩ steppingMachine = .ok (.finished (.bool true)) ∧
    Program.run ⟨settingProgram.body ++ readingProgram.body⟩ ⟨0⟩ steppingMachine =
      readingProgram.run ⟨0⟩ (settingProgram.run ⟨0⟩ steppingMachine).2 ∧
    leavingProgram.ending ⟨0⟩ steppingMachine = .ok (.returned .null) ∧
    Program.run ⟨leavingProgram.body ++ readingProgram.body⟩ ⟨0⟩ steppingMachine =
      leavingProgram.run ⟨0⟩ steppingMachine := by
  have hsetting : Program.ofTree setting.tree = .ok settingProgram := setting.accords_ofTree
  have hfinished : settingProgram.ending ⟨0⟩ steppingMachine = .ok (.finished (.bool true)) := by
    simp only [Program.ending, settingProgram, Target.assign, Target.write, executeAll, execute,
      evaluate]
    with_unfolding_all rfl
  have hreturned : leavingProgram.ending ⟨0⟩ steppingMachine = .ok (.returned .null) := by
    simp only [Program.ending, leavingProgram, executeAll, execute, evaluate]
    with_unfolding_all rfl
  refine ⟨hsetting, hfinished, ?_, hreturned, ?_⟩
  · exact run_in_pieces.1 _ _ _ _ _ _ hsetting isCompiled_steppingMachine hfinished
      (List.cons_ne_nil _ _)
  · refine run_in_pieces.2 _ _ _ _ fun value hvalue => ?_
    rw [hreturned] at hvalue
    cases hvalue

/-- A script that calls a function by its name. -/
def calling (name : String) : Surface.Script :=
  ⟨[.expression (.mk (.call (.name name) []) []) .mark]⟩

/-- The program that the script means. -/
def callingProgram (name : String) : Program := ⟨[.call (.getVariable name) []]⟩

/-- A machine with two closures that no program from a tree defines: `f` sets a value aside, and `g`
takes one back. -/
def unbalancedMachine : Machine :=
  let (globals, scopes) := Scopes.empty.new
  let (setter, heap) := { Heap.empty with scopes }.newFunction
    (.closure "f" [] [.stackPush (.literal (.int 1))] globals)
  let (taker, heap) := heap.newFunction
    (.closure "g" [] [.giveBack (.stackPop (.literal .null))] globals)
  ⟨(heap.define globals "f" setter).define globals "g" taker, [], #[]⟩

/-- The machine after `f` has been called, with what is set aside. -/
def unbalancedAfter (stack : List Value) : Machine :=
  ⟨(unbalancedMachine.heap.enterCall ⟨0⟩ [] []).2, stack, #[]⟩

/-- What the call of the setter does. -/
theorem evaluate_setter : evaluate 0 ⟨0⟩ (.call (.getVariable "f") []) unbalancedMachine =
    (.ok .null, unbalancedAfter [.int 1]) := by
  have hvariable : unbalancedMachine.heap.scopes.get? ⟨0⟩ "f" = some (.function ⟨0⟩) := by
    with_unfolding_all rfl
  rw [evaluate_call_closure hvariable rfl (by decide)]
  simp only [executeAll, execute, evaluate]
  rfl

/-- What `g` gives back is the value on top of the stack. -/
theorem evaluate_taker (stack : List Value) :
    ∃ after, evaluate 0 ⟨0⟩ (.call (.getVariable "g") []) (unbalancedAfter stack) =
      (stack.head?.elim (.error .emptyStack) .ok, after) := by
  have hvariable : (unbalancedAfter stack).heap.scopes.get? ⟨0⟩ "g" = some (.function ⟨1⟩) := by
    with_unfolding_all rfl
  rw [evaluate_call_closure hvariable rfl (by decide)]
  simp only [executeAll, execute, evaluate]
  cases stack <;> exact ⟨_, rfl⟩

/-- To run the program is to call the function. -/
theorem executeAll_calling (name : String) (machine : Machine) :
    executeAll 0 ⟨0⟩ .null (callingProgram name).body machine =
      (evaluate 0 ⟨0⟩ (.call (.getVariable name) []) >>= fun value => pure (.finished value) :
        Evaluation Completion) machine := by
  simp only [callingProgram, executeAll, execute, bind_assoc, pure_bind]

/-- On that machine the seam is seen: in one run, `g` gives back what `f` has set aside, and in two
runs it finds nothing. -/
theorem seam_seen_on_unbalancedMachine :
    Program.ofTree (calling "f").tree = .ok (callingProgram "f") ∧
    Program.ofTree (calling "g").tree = .ok (callingProgram "g") ∧
    (callingProgram "f").ending ⟨0⟩ unbalancedMachine = .ok (.finished .null) ∧
    (callingProgram "g").body ≠ [] ∧
    (Program.run ⟨(callingProgram "f").body ++ (callingProgram "g").body⟩ ⟨0⟩
      unbalancedMachine).1 = .ok (.int 1) ∧
    ((callingProgram "g").run ⟨0⟩ ((callingProgram "f").run ⟨0⟩ unbalancedMachine).2).1 =
      .error .emptyStack := by
  have hsetter : executeAll 0 ⟨0⟩ .null (callingProgram "f").body
      { unbalancedMachine with stack := [] } =
        (.ok (.finished .null), unbalancedAfter [.int 1]) := by
    change executeAll 0 ⟨0⟩ .null (callingProgram "f").body unbalancedMachine = _
    rw [executeAll_calling, bind_apply, evaluate_setter]
    rfl
  refine ⟨(calling "f").accords_ofTree, (calling "g").accords_ofTree, ?_,
    List.cons_ne_nil _ _, ?_, ?_⟩
  · rw [Program.ending, hsetter]
  · obtain ⟨after, htaker⟩ := evaluate_taker [.int 1]
    rw [Program.run_apply, executeAll_append, bind_assoc, bind_apply, hsetter]
    simp only [bind_apply, executeAll_calling, htaker]
    rfl
  · obtain ⟨after, htaker⟩ := evaluate_taker []
    have hmachine : { ((callingProgram "f").run ⟨0⟩ unbalancedMachine).2 with stack := [] } =
        unbalancedAfter [] := by
      rw [Program.run_apply, bind_apply, hsetter]
      rfl
    rw [Program.run_apply, hmachine, bind_apply, executeAll_calling, bind_apply, htaker]
    rfl

end TreeScript
