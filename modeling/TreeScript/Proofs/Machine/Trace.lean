import TreeScript.Proofs.Machine.Stack

/-!
# What a run can do to the machine

However a run goes, it takes the machine through single changes of a few sorts, each made in the
scope that the run is in at that moment; a call makes a new scope and goes on in it until it ends.
`Change` lists the sorts and `Trace` puts them in sequence. Evaluation is shown to leave such a
trace once and for all, for every operation, whether it succeeds or fails. What holds of all
traces is then shown by looking at one change at a time.
-/

namespace TreeScript

/-- A declaration that may replace an earlier one is never refused. -/
theorem Scopes.bind_declared (scopes : Scopes) (scope : ScopeId) (name : String) (value : Value) :
    scopes.bind scope name value .unconstrained true = .ok (scopes.define scope name value) :=
  rfl

namespace Machine

/-- The single changes that a run makes to a machine while it is in a scope. -/
inductive Change (scope : ScopeId) : Machine → Machine → Prop
  | bind {machine : Machine} {scopes : Scopes} {name : String} {value : Value} {policy : Policy}
      {declaration : Bool} :
      machine.heap.scopes.bind scope name value policy declaration = .ok scopes →
      Change scope machine { machine with heap := { machine.heap with scopes } }
  | setProperty (machine : Machine) (object : ObjectId) (key : String) (value : Value) :
      Change scope machine { machine with heap := machine.heap.setProperty object key value }
  | setItem (machine : Machine) (list : ListId) (index : Nat) (value : Value) :
      Change scope machine { machine with heap := machine.heap.setItem list index value }
  | newList (machine : Machine) (items : List Value) :
      Change scope machine { machine with heap := (machine.heap.newList items).2 }
  | newObject (machine : Machine) (properties : Dictionary Value) :
      Change scope machine { machine with heap := (machine.heap.newObject properties).2 }
  | newFunction (machine : Machine) (name : String) (parameters : List String)
      (body : List Operation) :
      Change scope machine
        { machine with heap := (machine.heap.newFunction (.closure name parameters body scope)).2 }
  | setStack (machine : Machine) (stack : List Value) : Change scope machine { machine with stack }
  | writeLine (machine : Machine) (line : String) :
      Change scope machine { machine with output := machine.output.push line }

/-- The ways from one machine to another that a run in a scope can take. -/
inductive Trace : ScopeId → Machine → Machine → Prop
  | stay (scope : ScopeId) (machine : Machine) : Trace scope machine machine
  | change {scope : ScopeId} {first second last : Machine} :
      Change scope first second → Trace scope second last → Trace scope first last
  /-- A call goes on in a new scope, wherever that lies, and comes back from it. -/
  | call {scope outer : ScopeId} {first second last : Machine} :
      Trace (first.heap.newScope outer).1
        { first with heap := (first.heap.newScope outer).2 } second →
      Trace scope second last → Trace scope first last

namespace Trace

variable {scope : ScopeId} {first second last : Machine}

/-- Traces follow one another. -/
theorem trans (h : Trace scope first second) (hnext : Trace scope second last) :
    Trace scope first last := by
  induction h with
  | stay => exact hnext
  | change hchange _ ih => exact .change hchange (ih hnext)
  | call hinner _ _ ih => exact .call hinner (ih hnext)

/-- One change is a trace. -/
theorem of_change (h : Change scope first second) : Trace scope first second :=
  .change h (.stay scope second)

end Trace

end Machine

open Machine

namespace Evaluation

variable {α β : Type} {scope : ScopeId}

/-- A step leads to where it leads by way of changes that a run in a scope can make. -/
def Traces (scope : ScopeId) (step : Evaluation α) : Prop :=
  ∀ machine, Trace scope machine (step machine).2

namespace Traces

/-- Steps in a row leave the trace of both. -/
theorem bind {step : Evaluation α} {next : α → Evaluation β} (h : Traces scope step)
    (hnext : ∀ value, Traces scope (next value)) : Traces scope (step >>= next) := by
  intro machine
  have hfirst := h machine
  rw [bind_apply]
  rcases hstep : step machine with ⟨fault | value, after⟩
  · rwa [hstep] at hfirst
  · rw [hstep] at hfirst
    exact hfirst.trans (hnext value after)

/-- A step that only returns changes nothing. -/
theorem pure (value : α) : Traces scope (Pure.pure value : Evaluation α) :=
  fun machine => .stay scope machine

/-- A step that only fails changes nothing. -/
theorem throw (fault : Fault) : Traces scope (MonadExcept.throw fault : Evaluation α) :=
  fun machine => .stay scope machine

/-- A question changes nothing. -/
theorem consult (question : Heap → Except Fault α) : Traces scope (Evaluation.consult question) :=
  fun machine => .stay scope machine

/-- Looking a name up changes nothing. -/
theorem lookUp (inside : ScopeId) (name : String) :
    Traces scope (Evaluation.lookUp inside name) :=
  .consult _

/-- Finding the function to call changes nothing. -/
theorem calledFunction (callee : Value) : Traces scope (Evaluation.calledFunction callee) :=
  .consult _

/-- An update leaves the trace of its change. -/
theorem update {change : Heap → Except Fault Heap}
    (h : ∀ machine heap, change machine.heap = .ok heap →
      Change scope machine { machine with heap }) : Traces scope (Evaluation.update change) := by
  intro machine
  unfold Evaluation.update
  split
  · rename_i heap hheap
    exact .of_change (h machine heap hheap)
  · exact .stay scope machine

/-- Binding a name is a change. -/
theorem bindName (name : String) (value : Value) (policy : Policy) (declaration : Bool) :
    Traces scope (Evaluation.bindName scope name value policy declaration) := by
  refine .update fun machine heap h => ?_
  obtain ⟨scopes, hscopes, hheap⟩ := bind_eq_ok.mp h
  cases hheap
  exact .bind hscopes

/-- Writing a member is a change. -/
theorem setMember (target : Value) (member : String) (value : Value) :
    Traces scope (Evaluation.update (·.setMember target member value)) := by
  refine .update fun machine heap h => ?_
  obtain ⟨object, -, rfl⟩ := Heap.setMember_eq_ok_iff.mp h
  exact .setProperty machine object member value

/-- Writing an index is a change. -/
theorem setIndex (target index value : Value) :
    Traces scope (Evaluation.update (·.setIndex target index value)) := by
  refine .update fun machine heap h => ?_
  rcases Heap.setIndex_eq_ok_iff.mp h with
    ⟨list, i, slot, -, -, -, rfl⟩ | ⟨object, name, -, -, rfl⟩
  · exact .setItem machine list slot value
  · exact .setProperty machine object name value

/-- Making a list is a change. -/
theorem newList (items : List Value) : Traces scope (Evaluation.allocate (·.newList items)) :=
  fun machine => .of_change (.newList machine items)

/-- Making a function is a change. -/
theorem newFunction (name : String) (parameters : List String) (body : List Operation) :
    Traces scope (Evaluation.allocate (·.newFunction (.closure name parameters body scope))) :=
  fun machine => .of_change (.newFunction machine name parameters body)

/-- Setting a value aside is a change. -/
theorem setAside (value : Value) : Traces scope (Evaluation.setAside value) :=
  fun machine => .of_change (.setStack machine (value :: machine.stack))

/-- Taking a value back is a change. -/
theorem takeBack : Traces scope Evaluation.takeBack := by
  intro machine
  unfold Evaluation.takeBack
  split
  · exact .of_change (.setStack machine _)
  · exact .stay scope machine

/-- Clearing the stack is a change. -/
theorem clearStack : Traces scope Evaluation.clearStack :=
  fun machine => .of_change (.setStack machine [])

/-- A built-in function leaves a trace. -/
theorem builtin (which : Builtin) (arguments : List Value) :
    Traces scope (which.apply arguments) := by
  cases which with
  | print =>
    intro machine
    exact .of_change (.writeLine machine (" ".intercalate (arguments.map machine.heap.render)))
  | len => exact .consult _
  | object => exact fun machine => .of_change (.newObject machine .empty)
  | list => exact .newList arguments

/-- Parameters are bound one after the other in the scope of the call. -/
theorem bindParameters (machine : Machine) (names : List String) (values : List Value) :
    Trace scope machine
      { machine with heap := machine.heap.bindParameters scope names values } := by
  induction names generalizing machine values with
  | nil => exact .stay scope machine
  | cons name names ih =>
    cases values with
    | nil => exact .change (.bind (Scopes.bind_declared _ scope name .null)) (ih _ [])
    | cons value values =>
      exact .change (.bind (Scopes.bind_declared _ scope name value)) (ih _ values)

/-- A body that is run in the scope of a call, and what follows in the scope around it. -/
theorem inCall {outer : ScopeId} {names : List String} {values : List Value}
    {body : ScopeId → Evaluation α} (h : ∀ inner, Traces inner (body inner)) :
    Traces scope (Evaluation.allocate (·.enterCall outer names values) >>= body) := by
  intro machine
  let inner := (machine.heap.newScope outer).1
  let entered : Machine := { machine with heap := (machine.heap.newScope outer).2 }
  have hentered : Trace inner entered
      { entered with heap := entered.heap.bindParameters inner names values } :=
    bindParameters entered names values
  exact .call (hentered.trans (h inner _)) (.stay scope _)

end Traces

end Evaluation

open Evaluation

/-- An operator evaluates its left operand, and its right one unless the left one decides. -/
theorem binary_traces {depth : Nat} {scope : ScopeId} {left right : Operation}
    (operator : BinaryOperator) (hleft : Traces scope (evaluate depth scope left))
    (hright : Traces scope (evaluate depth scope right)) :
    Traces scope (evaluate depth scope (.binary operator left right)) := by
  by_cases hboth : operator = .both
  · subst hboth
    rw [evaluate]
    refine hleft.bind fun left => ?_
    split
    · exact hright.bind fun right => .pure _
    · exact .pure _
  by_cases heither : operator = .either
  · subst heither
    rw [evaluate]
    refine hleft.bind fun left => ?_
    split
    · exact .pure _
    · exact hright.bind fun right => .pure _
  rw [evaluate_binary hboth heither]
  exact hleft.bind fun left => hright.bind fun right => .consult _

mutual

/-- An operation leaves a trace in its scope. -/
theorem evaluate_traces (depth : Nat) (scope : ScopeId) (operation : Operation) :
    Traces scope (evaluate depth scope operation) := by
  cases operation with
  | literal value => rw [evaluate]; exact .pure _
  | getVariable name => rw [evaluate]; exact .lookUp scope name
  | setVariable name value policy declaration =>
    rw [evaluate]
    refine (evaluate_traces depth scope value).bind fun value => ?_
    exact (Traces.bindName name value policy declaration).bind fun _ => .pure value
  | getMember object member =>
    rw [evaluate]
    exact (evaluate_traces depth scope object).bind fun object => .consult _
  | setMember object member value =>
    rw [evaluate]
    refine (evaluate_traces depth scope object).bind fun object => ?_
    refine (evaluate_traces depth scope value).bind fun value => ?_
    exact (Traces.setMember object member value).bind fun _ => .pure value
  | getIndex object index =>
    rw [evaluate]
    refine (evaluate_traces depth scope object).bind fun object => ?_
    exact (evaluate_traces depth scope index).bind fun index => .consult _
  | setIndex object index value =>
    rw [evaluate]
    refine (evaluate_traces depth scope object).bind fun object => ?_
    refine (evaluate_traces depth scope index).bind fun index => ?_
    refine (evaluate_traces depth scope value).bind fun value => ?_
    exact (Traces.setIndex object index value).bind fun _ => .pure value
  | call callee arguments =>
    rw [evaluate]
    refine (evaluate_traces depth scope callee).bind fun callee => ?_
    refine (evaluateAll_traces depth scope arguments).bind fun arguments => ?_
    exact call_traces depth scope callee arguments
  | createList elements =>
    rw [evaluate]
    exact (evaluateAll_traces depth scope elements).bind fun elements => .newList elements
  | binary operator left right =>
    exact binary_traces operator (evaluate_traces depth scope left)
      (evaluate_traces depth scope right)
  | unary operator operand =>
    rw [evaluate]
    exact (evaluate_traces depth scope operand).bind fun operand => .consult _
  | stackPush inner =>
    rw [evaluate]
    refine (evaluate_traces depth scope inner).bind fun value => ?_
    exact (Traces.setAside value).bind fun _ => .pure value
  | stackPop inner =>
    rw [evaluate]
    exact (evaluate_traces depth scope inner).bind fun _ => .takeBack
  | function name parameters body => rw [evaluate]; exact .newFunction name parameters body
  | giveBack value => rw [evaluate]; exact .throw _
  | ifThen condition consequence => rw [evaluate]; exact .throw _
  | ifThenElse condition consequence alternative => rw [evaluate]; exact .throw _
  | block body => rw [evaluate]; exact .throw _
termination_by (maxDepth - depth, sizeOf operation)
decreasing_by
  all_goals
    simp only [lex_iff, Operation.setVariable.sizeOf_spec, Operation.getMember.sizeOf_spec,
      Operation.setMember.sizeOf_spec, Operation.getIndex.sizeOf_spec,
      Operation.setIndex.sizeOf_spec, Operation.call.sizeOf_spec,
      Operation.createList.sizeOf_spec, Operation.binary.sizeOf_spec, Operation.unary.sizeOf_spec,
      Operation.stackPush.sizeOf_spec, Operation.stackPop.sizeOf_spec]
    omega

/-- Operands leave a trace. -/
theorem evaluateAll_traces (depth : Nat) (scope : ScopeId) (operations : List Operation) :
    Traces scope (evaluateAll depth scope operations) := by
  cases operations with
  | nil => rw [evaluateAll]; exact .pure _
  | cons operation rest =>
    rw [evaluateAll]
    refine (evaluate_traces depth scope operation).bind fun value => ?_
    exact (evaluateAll_traces depth scope rest).bind fun values => .pure _
termination_by (maxDepth - depth, sizeOf operations)
decreasing_by all_goals simp only [lex_iff, List.cons.sizeOf_spec]; omega

/-- A statement leaves a trace. -/
theorem execute_traces (depth : Nat) (scope : ScopeId) (operation : Operation) :
    Traces scope (execute depth scope operation) := by
  cases operation with
  | giveBack value =>
    rw [execute]
    exact (evaluate_traces depth scope value).bind fun value => .pure _
  | block body =>
    rw [execute]
    exact executeAll_traces depth scope .null body
  | ifThen condition consequence =>
    rw [execute]
    refine (evaluate_traces depth scope condition).bind fun condition => ?_
    split
    · exact executeAll_traces depth scope .null consequence
    · exact .pure _
  | ifThenElse condition consequence alternative =>
    rw [execute]
    refine (evaluate_traces depth scope condition).bind fun condition => ?_
    split
    · exact executeAll_traces depth scope .null consequence
    · exact executeAll_traces depth scope .null alternative
  | _ =>
    rw [execute]
    · exact (evaluate_traces depth scope _).bind fun value => .pure _
    all_goals
      intros
      rename_i heq
      cases heq
termination_by (maxDepth - depth, sizeOf operation + 1)
decreasing_by
  all_goals
    simp only [lex_iff, Operation.giveBack.sizeOf_spec, Operation.ifThen.sizeOf_spec,
      Operation.ifThenElse.sizeOf_spec, Operation.block.sizeOf_spec]
    omega

/-- Statements in a row leave a trace. -/
theorem executeAll_traces (depth : Nat) (scope : ScopeId) (before : Value)
    (operations : List Operation) : Traces scope (executeAll depth scope before operations) := by
  cases operations with
  | nil => rw [executeAll]; exact .pure _
  | cons operation rest =>
    rw [executeAll]
    refine (execute_traces depth scope operation).bind fun completion => ?_
    cases completion with
    | finished value => exact executeAll_traces depth scope value rest
    | returned value => exact .pure _
termination_by (maxDepth - depth, sizeOf operations + 1)
decreasing_by all_goals simp only [lex_iff, List.cons.sizeOf_spec]; omega

/-- A call runs in a scope of its own, so the scope it is made in does not matter. -/
theorem call_traces (depth : Nat) (scope : ScopeId) (callee : Value) (arguments : List Value) :
    Traces scope (TreeScript.call depth callee arguments) := by
  rw [TreeScript.call]
  refine (Traces.calledFunction callee).bind fun callable => ?_
  cases callable with
  | builtin which => exact (Traces.consult _).bind fun _ => .builtin which arguments
  | closure name parameters body outer =>
    dsimp only
    split
    · refine Traces.inCall fun inner => ?_
      exact (executeAll_traces (depth + 1) inner .null body).bind fun _ => .pure _
    · exact .throw _
termination_by (maxDepth - depth, 0)
decreasing_by all_goals simp only [lex_iff]; omega

end

/-- A program leaves a trace in the scope it is run in. -/
theorem Program.run_traces (program : Program) (scope : ScopeId) :
    Traces scope (program.run scope) :=
  Traces.clearStack.bind fun _ =>
    (executeAll_traces 0 scope .null program.body).bind fun _ => .pure _

end TreeScript
