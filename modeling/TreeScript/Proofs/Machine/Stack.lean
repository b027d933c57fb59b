import TreeScript.Machine.Evaluate
import TreeScript.Proofs.Heap.Place
import TreeScript.Proofs.Outcome

/-!
# The value stack

Operations set values aside and take them back. `Leaves` counts, without running anything, how
many values an operation has set aside and not taken back when it is done; `Runs` is the same for
statements, which leave none. Evaluation keeps to that count, never touches the values that were
set aside before it, and does not look at them either: the same result, heap and output come
about on any stack. Faults of the interpreter itself do not arise then, as long as the closures
in the heap run only such statements.
-/

namespace TreeScript

variable {count : Nat} {operator : BinaryOperator}

namespace Operation

mutual

/-- Evaluating the operation leaves so many values set aside. -/
inductive Leaves : Nat → Operation → Prop
  | literal (value : Literal) : Leaves 0 (.literal value)
  | getVariable (name : String) : Leaves 0 (.getVariable name)
  | setVariable {count : Nat} {value : Operation} (name : String) (policy : Policy)
      (declaration : Bool) :
      Leaves count value → Leaves count (.setVariable name value policy declaration)
  | getMember {object : Operation} (member : String) :
      Leaves 0 object → Leaves 0 (.getMember object member)
  | setMember {count : Nat} {object value : Operation} (member : String) :
      Leaves 0 object → Leaves count value → Leaves count (.setMember object member value)
  | getIndex {object index : Operation} :
      Leaves 0 object → Leaves 0 index → Leaves 0 (.getIndex object index)
  | setIndex {count : Nat} {object index value : Operation} :
      Leaves 0 object → Leaves 0 index → Leaves count value →
      Leaves count (.setIndex object index value)
  | call {callee : Operation} {arguments : List Operation} :
      Leaves 0 callee → (∀ argument ∈ arguments, Leaves 0 argument) →
      Leaves 0 (.call callee arguments)
  | createList {elements : List Operation} :
      (∀ element ∈ elements, Leaves 0 element) → Leaves 0 (.createList elements)
  | binary {count : Nat} {left right : Operation} (operator : BinaryOperator) :
      Leaves count left → Leaves 0 right → Leaves count (.binary operator left right)
  | unary {operand : Operation} (operator : UnaryOperator) :
      Leaves 0 operand → Leaves 0 (.unary operator operand)
  | stackPush {count : Nat} {inner : Operation} :
      Leaves count inner → Leaves (count + 1) (.stackPush inner)
  | stackPop {count : Nat} {inner : Operation} :
      Leaves (count + 1) inner → Leaves count (.stackPop inner)
  | function {body : List Operation} (name : String) (parameters : List String) :
      (∀ operation ∈ body, Runs operation) → Leaves 0 (.function name parameters body)

/-- Executing the operation as a statement leaves no values set aside. -/
inductive Runs : Operation → Prop
  | value {operation : Operation} : Leaves 0 operation → Runs operation
  | giveBack {value : Operation} : Leaves 0 value → Runs (.giveBack value)
  | ifThen {condition : Operation} {consequence : List Operation} :
      Leaves 0 condition → (∀ operation ∈ consequence, Runs operation) →
      Runs (.ifThen condition consequence)
  | ifThenElse {condition : Operation} {consequence alternative : List Operation} :
      Leaves 0 condition → (∀ operation ∈ consequence, Runs operation) →
      (∀ operation ∈ alternative, Runs operation) →
      Runs (.ifThenElse condition consequence alternative)
  | block {body : List Operation} : (∀ operation ∈ body, Runs operation) → Runs (.block body)

end

end Operation

/-- A function whose body, if it has one, can be run. -/
def Callable.IsSound : Callable → Prop
  | closure _ _ body _ => ∀ operation ∈ body, operation.Runs
  | builtin _ => True

/-- All functions in the heap can be run. -/
def Heap.IsSound (heap : Heap) : Prop := ∀ callable ∈ heap.functions, callable.IsSound

/-- Whether a fault is one of the interpreter and not of the program it runs. -/
def Fault.isInternal (fault : Fault) : Bool := fault.kind == .internalError

/-- A fault that the program is to blame for. -/
def Fault.IsOrdinary (fault : Fault) : Prop := fault.isInternal = false

namespace Evaluation

variable {α β : Type}

/-- A step sets so many values aside, whatever the stack it starts from, and keeps the heap sound.
The stack plays no part in what it does. A fault it ends with is an ordinary one. -/
def SetsAside (count : Nat) (step : Evaluation α) : Prop :=
  ∀ (heap : Heap) (output : Array String), heap.IsSound →
    ∃ (result : Except Fault α) (heap' : Heap) (output' : Array String) (aside : List Value),
      (∀ stack, step ⟨heap, stack, output⟩ = (result, ⟨heap', aside ++ stack, output'⟩)) ∧
        heap'.IsSound ∧
        match result with
        | .ok _ => aside.length = count
        | .error fault => fault.IsOrdinary

namespace SetsAside

variable {step : Evaluation α} {next : α → Evaluation β}

/-- Steps in sequence set aside what both of them do. -/
theorem bind {first second : Nat} (h : SetsAside first step)
    (hnext : ∀ value, SetsAside second (next value)) :
    SetsAside (second + first) (step >>= next) := by
  intro heap output hheap
  obtain ⟨result, heap₁, output₁, earlier, hrun, hheap₁, hresult⟩ := h heap output hheap
  cases result with
  | error fault =>
    refine ⟨.error fault, heap₁, output₁, earlier, fun stack => ?_, hheap₁, hresult⟩
    rw [bind_apply, hrun stack]
  | ok value =>
    obtain ⟨final, heap₂, output₂, later, hrun', hheap₂, hfinal⟩ :=
      hnext value heap₁ output₁ hheap₁
    refine ⟨final, heap₂, output₂, later ++ earlier, fun stack => ?_, hheap₂, ?_⟩
    · rw [bind_apply, hrun stack]
      simp only [hrun' (earlier ++ stack), List.append_assoc]
    · cases final with
      | error fault => exact hfinal
      | ok _ =>
        change earlier.length = first at hresult
        change later.length = second at hfinal
        rw [List.length_append, hresult, hfinal]

/-- After a step that sets nothing aside, the count is that of what follows. -/
theorem bindRight (h : SetsAside 0 step) (hnext : ∀ value, SetsAside count (next value)) :
    SetsAside count (step >>= next) :=
  h.bind hnext

/-- Before steps that set nothing aside, the count is that of the step itself. -/
theorem bindLeft (h : SetsAside count step) (hnext : ∀ value, SetsAside 0 (next value)) :
    SetsAside count (step >>= next) :=
  Nat.zero_add count ▸ h.bind hnext

/-- A step that only returns sets nothing aside. -/
theorem pure (value : α) : SetsAside 0 (Pure.pure value : Evaluation α) :=
  fun heap output hheap => ⟨.ok value, heap, output, [], fun _ => rfl, hheap, rfl⟩

/-- A step that fails in an ordinary way may claim any count. -/
theorem throw {count : Nat} {fault : Fault} (h : fault.IsOrdinary) :
    SetsAside count (MonadExcept.throw fault : Evaluation α) :=
  fun heap output hheap => ⟨.error fault, heap, output, [], fun _ => rfl, hheap, h⟩

/-- A question with ordinary faults sets nothing aside. -/
theorem consult {question : Heap → Except Fault α}
    (h : ∀ heap, FailsOnly Fault.IsOrdinary (question heap)) :
    SetsAside 0 (Evaluation.consult question) := by
  intro heap output hheap
  refine ⟨question heap, heap, output, [], fun _ => rfl, hheap, ?_⟩
  cases hanswer : question heap with
  | error fault => exact h heap fault hanswer
  | ok _ => rfl

/-- A change of the heap that keeps the functions sets nothing aside. -/
theorem update {change : Heap → Except Fault Heap}
    (hfault : ∀ heap, FailsOnly Fault.IsOrdinary (change heap))
    (hfunctions : ∀ heap heap', change heap = .ok heap' → heap'.functions = heap.functions) :
    SetsAside 0 (Evaluation.update change) := by
  intro heap output hheap
  cases hchange : change heap with
  | error fault =>
    refine ⟨.error fault, heap, output, [], fun stack => ?_, hheap, hfault heap fault hchange⟩
    simp [Evaluation.update, hchange]
  | ok heap' =>
    refine ⟨.ok (), heap', output, [], fun stack => ?_, ?_, rfl⟩
    · simp [Evaluation.update, hchange]
    · unfold Heap.IsSound
      rw [hfunctions heap heap' hchange]
      exact hheap

/-- A new entry that keeps the heap sound sets nothing aside. -/
theorem allocate {make : Heap → α × Heap} (h : ∀ heap, heap.IsSound → (make heap).2.IsSound) :
    SetsAside 0 (Evaluation.allocate make) :=
  fun heap output hheap =>
    ⟨.ok (make heap).1, (make heap).2, output, [], fun _ => rfl, h heap hheap, rfl⟩

/-- Setting a value aside adds one. -/
theorem setAside (value : Value) : SetsAside 1 (Evaluation.setAside value) :=
  fun heap output hheap => ⟨.ok (), heap, output, [value], fun _ => rfl, hheap, rfl⟩

/-- After a step that sets something aside, taking back finds a value and leaves the rest. -/
theorem takeBack (h : SetsAside (count + 1) step) :
    SetsAside count (step >>= fun _ => Evaluation.takeBack) := by
  intro heap output hheap
  obtain ⟨result, heap', output', aside, hrun, hheap', hresult⟩ := h heap output hheap
  cases result with
  | error fault =>
    refine ⟨.error fault, heap', output', aside, fun stack => ?_, hheap', hresult⟩
    rw [bind_apply, hrun stack]
  | ok _ =>
    obtain ⟨value, rest, rfl⟩ := List.exists_cons_of_length_eq_add_one hresult
    refine ⟨.ok value, heap', output', rest, fun stack => ?_, hheap', ?_⟩
    · rw [bind_apply, hrun stack]
      rfl
    · exact Nat.succ.inj hresult

end SetsAside

end Evaluation

/-! ## Faults of single steps -/

namespace Value

/-- Division fails in ordinary ways only. -/
theorem ordinary_divideInts (a b : Int64) : FailsOnly Fault.IsOrdinary (divideInts a b) := by
  unfold divideInts
  split
  · exact .error rfl
  · split <;> exact .ok _

/-- So does the remainder. -/
theorem ordinary_remainderOfInts (a b : Int64) :
    FailsOnly Fault.IsOrdinary (remainderOfInts a b) := by
  unfold remainderOfInts
  split
  · exact .error rfl
  · exact .ok _

/-- Arithmetic fails in ordinary ways only, if it does so on integers. -/
theorem ordinary_arithmetic {onInts : Int64 → Int64 → Except Fault Value}
    {onFloats : Float → Float → Float} (h : ∀ a b, FailsOnly Fault.IsOrdinary (onInts a b))
    (left right : Value) :
    FailsOnly Fault.IsOrdinary (arithmetic operator onInts onFloats left right) := by
  unfold arithmetic
  split
  · exact h _ _
  · split
    · exact .ok _
    · exact .error rfl

/-- So do the operators on bits. -/
theorem ordinary_bitwise (operator : BinaryOperator) (onInts : Int64 → Int64 → Int64)
    (left right : Value) :
    FailsOnly Fault.IsOrdinary (bitwise operator onInts left right) := by
  unfold bitwise
  split
  · exact .ok _
  · exact .error rfl

/-- So do the comparisons. -/
theorem ordinary_ordered (operator : BinaryOperator) (test : Ordering → Bool)
    (left right : Value) :
    FailsOnly Fault.IsOrdinary (ordered operator test left right) := by
  unfold ordered
  split
  · exact .ok _
  · exact .error rfl

/-- So do the operators with one operand. -/
theorem ordinary_applyUnary (operator : UnaryOperator) (operand : Value) :
    FailsOnly Fault.IsOrdinary (operand.applyUnary operator) := by
  unfold applyUnary
  split
  case h_7 => exact .error rfl
  all_goals exact .ok _

end Value

namespace Heap

/-- So does addition. -/
theorem ordinary_add (heap : Heap) (left right : Value) :
    FailsOnly Fault.IsOrdinary (heap.add left right) := by
  unfold add
  split
  · exact .ok _
  · exact Value.ordinary_arithmetic (fun _ _ => .ok _) left right

/-- So does every operator with two operands. -/
theorem ordinary_applyBinary (heap : Heap) (operator : BinaryOperator) (left right : Value) :
    FailsOnly Fault.IsOrdinary (heap.applyBinary operator left right) := by
  cases operator with
  | add => exact heap.ordinary_add left right
  | sub | mul | pow => exact Value.ordinary_arithmetic (fun _ _ => .ok _) left right
  | div => exact Value.ordinary_arithmetic Value.ordinary_divideInts left right
  | mod => exact Value.ordinary_arithmetic Value.ordinary_remainderOfInts left right
  | equal | notEqual | both | either => exact .ok _
  | less | greater | lessEqual | greaterEqual => exact Value.ordinary_ordered _ _ left right
  | bitOr | bitAnd | bitXor => exact Value.ordinary_bitwise _ _ left right

/-- A member is read with ordinary faults only. -/
theorem ordinary_getMember (heap : Heap) (object : Value) (member : String) :
    FailsOnly Fault.IsOrdinary (heap.getMember object member) := by
  unfold getMember
  split
  case h_4 => exact .error rfl
  all_goals exact .ok _

/-- An index is read with ordinary faults only. -/
theorem ordinary_getIndex (heap : Heap) (object index : Value) :
    FailsOnly Fault.IsOrdinary (heap.getIndex object index) := by
  unfold getIndex
  split
  case h_4 => exact .error rfl
  all_goals exact .ok _

/-- A member is written with ordinary faults only. -/
theorem ordinary_setMember (heap : Heap) (target : Value) (member : String) (value : Value) :
    FailsOnly Fault.IsOrdinary (heap.setMember target member value) := by
  unfold setMember
  split
  · exact .ok _
  · exact .error rfl

/-- An index is written with ordinary faults only. -/
theorem ordinary_setIndex (heap : Heap) (target index value : Value) :
    FailsOnly Fault.IsOrdinary (heap.setIndex target index value) := by
  unfold setIndex
  split
  · dsimp only
    split
    · exact .ok _
    · exact .error rfl
  · exact .ok _
  · exact .error rfl

/-! Writing and making anything but a function leaves the functions as they are. -/

/-- Writing a member keeps the functions. -/
theorem functions_setMember {heap heap' : Heap} {target : Value} {member : String} {value : Value}
    (h : heap.setMember target member value = .ok heap') : heap'.functions = heap.functions := by
  obtain ⟨object, -, rfl⟩ := setMember_eq_ok_iff.mp h
  rfl

/-- Writing an index keeps the functions. -/
theorem functions_setIndex {heap heap' : Heap} {target index value : Value}
    (h : heap.setIndex target index value = .ok heap') : heap'.functions = heap.functions := by
  rcases setIndex_eq_ok_iff.mp h with
    ⟨list, i, slot, -, -, -, rfl⟩ | ⟨object, name, -, -, rfl⟩ <;> rfl

/-- Binding parameters keeps the functions. -/
theorem functions_bindParameters (heap : Heap) (scope : ScopeId) (names : List String)
    (values : List Value) :
    (heap.bindParameters scope names values).functions = heap.functions := by
  fun_induction bindParameters heap scope names values with
  | case1 => rfl
  | case2 heap name names ih => exact ih
  | case3 heap name names value values ih => exact ih

/-- Entering a call keeps the functions. -/
theorem functions_enterCall (heap : Heap) (outer : ScopeId) (names : List String)
    (values : List Value) : (heap.enterCall outer names values).2.functions = heap.functions :=
  functions_bindParameters _ _ names values

/-- A new function that can be run keeps the heap sound. -/
theorem IsSound.newFunction {heap : Heap} {callable : Callable} (h : heap.IsSound)
    (hcallable : callable.IsSound) : (heap.newFunction callable).2.IsSound := by
  intro other hother
  rcases Array.mem_push.mp hother with hold | rfl
  · exact h other hold
  · exact hcallable

end Heap

namespace Scopes

/-- A name is bound with ordinary faults only. -/
theorem ordinary_bind (scopes : Scopes) (scope : ScopeId) (name : String) (value : Value)
    (policy : Policy) (declaration : Bool) :
    FailsOnly Fault.IsOrdinary (scopes.bind scope name value policy declaration) := by
  unfold bind
  split
  · split
    · exact .error rfl
    · exact .ok _
  · split
    · exact .ok _
    · exact .error rfl
  · split <;> exact .ok _

end Scopes

/-! ## Evaluation -/

namespace Evaluation.SetsAside

/-- Looking a name up sets nothing aside. -/
theorem lookUp (scope : ScopeId) (name : String) : SetsAside 0 (Evaluation.lookUp scope name) := by
  refine consult fun heap => ?_
  split
  · exact .ok _
  · exact .error rfl

/-- Binding a name sets nothing aside. -/
theorem bindName (scope : ScopeId) (name : String) (value : Value) (policy : Policy)
    (declaration : Bool) :
    SetsAside 0 (Evaluation.bindName scope name value policy declaration) := by
  refine update (fun heap => ?_) fun heap heap' h => ?_
  · exact (heap.scopes.ordinary_bind scope name value policy declaration).bind fun _ => .ok _
  · obtain ⟨scopes, -, hheap⟩ := bind_eq_ok.mp h
    cases hheap
    rfl

/-- A built-in function sets nothing aside. -/
theorem builtin (which : Builtin) (arguments : List Value) :
    SetsAside 0 (which.apply arguments) := by
  unfold Builtin.apply
  cases which with
  | print =>
    intro heap output hheap
    let line := " ".intercalate (arguments.map heap.render)
    exact ⟨.ok .null, heap, output.push line, [], fun _ => rfl, hheap, rfl⟩
  | len =>
    refine consult fun heap => ?_
    dsimp only
    split
    · exact .ok _
    · exact .error rfl
  | object => exact allocate fun heap h => (h : heap.IsSound)
  | list => exact allocate fun heap h => (h : heap.IsSound)

/-- Counting arguments sets nothing aside. -/
theorem checkArity (which : Builtin) (given : Nat) :
    SetsAside 0 (Evaluation.consult fun _ => which.checkArity given) := by
  refine consult fun _ => ?_
  unfold Builtin.checkArity
  split
  · exact .ok _
  · split
    · exact .ok _
    · exact .error rfl

end Evaluation.SetsAside

open Evaluation Operation

/-- An operator that looks at both of its operands is applied to their values. -/
theorem evaluate_binary (hboth : operator ≠ .both) (heither : operator ≠ .either) (depth : Nat)
    (scope : ScopeId) (left right : Operation) :
    evaluate depth scope (.binary operator left right) = (do
      let left ← evaluate depth scope left
      let right ← evaluate depth scope right
      consult (·.applyBinary operator left right)) := by
  rw [evaluate]
  · exact hboth
  · exact heither

/-- An operation that leaves no value aside as an expression is executed for its value. -/
theorem execute_of_leaves {operation : Operation} (h : operation.Leaves count) (depth : Nat)
    (scope : ScopeId) :
    execute depth scope operation = (do return .finished (← evaluate depth scope operation)) := by
  cases h <;> simp [execute]

/-- Looking a function up finds one that can be run or ends with an ordinary fault, and changes
nothing. -/
theorem calledFunction_apply (callee : Value) {heap : Heap} (hheap : heap.IsSound) :
    ∃ found : Except Fault Callable,
      (∀ stack output, calledFunction callee ⟨heap, stack, output⟩ =
        (found, ⟨heap, stack, output⟩)) ∧
      match found with
      | .ok callable => callable.IsSound
      | .error fault => fault.IsOrdinary := by
  cases callee with
  | function function =>
    cases hfound : heap.callable? function with
    | none =>
      refine ⟨.error (.notCallable .function), fun stack output => ?_, rfl⟩
      simp [calledFunction, Evaluation.consult, hfound]
    | some callable =>
      refine ⟨.ok callable, fun stack output => ?_, hheap callable (Array.mem_of_getElem? hfound)⟩
      simp [calledFunction, Evaluation.consult, hfound]
  | null | bool | int | float | string | list | object =>
    exact ⟨.error (.notCallable _), fun _ _ => rfl, rfl⟩

mutual

/-- An operation sets aside what its form says. -/
theorem evaluate_setsAside (depth : Nat) (scope : ScopeId) (operation : Operation) :
    ∀ count, operation.Leaves count → SetsAside count (evaluate depth scope operation) := by
  intro count h
  cases h with
  | literal value => rw [evaluate]; exact .pure _
  | getVariable name => rw [evaluate]; exact .lookUp scope name
  | setVariable name policy declaration hvalue =>
    rw [evaluate]
    refine (evaluate_setsAside depth scope _ _ hvalue).bindLeft fun value => ?_
    exact (SetsAside.bindName scope name value policy declaration).bindRight fun _ => .pure value
  | getMember member hobject =>
    rw [evaluate]
    refine (evaluate_setsAside depth scope _ _ hobject).bindRight fun object => ?_
    exact .consult fun heap => heap.ordinary_getMember object member
  | setMember member hobject hvalue =>
    rw [evaluate]
    refine (evaluate_setsAside depth scope _ _ hobject).bindRight fun object => ?_
    refine (evaluate_setsAside depth scope _ _ hvalue).bindLeft fun value => ?_
    refine SetsAside.bindRight (.update (fun heap => ?_) fun _ _ => ?_) fun _ => .pure value
    · exact heap.ordinary_setMember object member value
    · exact Heap.functions_setMember
  | getIndex hobject hindex =>
    rw [evaluate]
    refine (evaluate_setsAside depth scope _ _ hobject).bindRight fun object => ?_
    refine (evaluate_setsAside depth scope _ _ hindex).bindRight fun index => ?_
    exact .consult fun heap => heap.ordinary_getIndex object index
  | setIndex hobject hindex hvalue =>
    rw [evaluate]
    refine (evaluate_setsAside depth scope _ _ hobject).bindRight fun object => ?_
    refine (evaluate_setsAside depth scope _ _ hindex).bindRight fun index => ?_
    refine (evaluate_setsAside depth scope _ _ hvalue).bindLeft fun value => ?_
    refine SetsAside.bindRight (.update (fun heap => ?_) fun _ _ => ?_) fun _ => .pure value
    · exact heap.ordinary_setIndex object index value
    · exact Heap.functions_setIndex
  | call hcallee harguments =>
    rw [evaluate]
    refine (evaluate_setsAside depth scope _ _ hcallee).bindRight fun callee => ?_
    refine (evaluateAll_setsAside depth scope _ harguments).bindRight fun arguments => ?_
    exact call_setsAside depth callee arguments
  | createList helements =>
    rw [evaluate]
    refine (evaluateAll_setsAside depth scope _ helements).bindRight fun elements => ?_
    exact .allocate fun heap h => (h : heap.IsSound)
  | binary operator hleft hright =>
    have hleft := evaluate_setsAside depth scope _ _ hleft
    have hright := evaluate_setsAside depth scope _ _ hright
    by_cases hboth : operator = .both
    · subst hboth
      rw [evaluate]
      refine hleft.bindLeft fun left => ?_
      split
      · exact hright.bindRight fun right => .pure _
      · exact .pure _
    by_cases heither : operator = .either
    · subst heither
      rw [evaluate]
      refine hleft.bindLeft fun left => ?_
      split
      · exact .pure _
      · exact hright.bindRight fun right => .pure _
    rw [evaluate_binary hboth heither]
    refine hleft.bindLeft fun left => hright.bindRight fun right => ?_
    exact .consult fun heap => heap.ordinary_applyBinary operator left right
  | unary operator hoperand =>
    rw [evaluate]
    refine (evaluate_setsAside depth scope _ _ hoperand).bindRight fun operand => ?_
    exact .consult fun _ => operand.ordinary_applyUnary operator
  | stackPush hinner =>
    rw [evaluate, Nat.add_comm]
    refine (evaluate_setsAside depth scope _ _ hinner).bind fun value => ?_
    exact (SetsAside.setAside value).bindLeft fun _ => .pure value
  | stackPop hinner =>
    rw [evaluate]
    exact (evaluate_setsAside depth scope _ _ hinner).takeBack
  | function name parameters hbody =>
    rw [evaluate]
    exact .allocate fun heap hheap => hheap.newFunction hbody
termination_by (maxDepth - depth, sizeOf operation)
decreasing_by
  all_goals
    subst_vars
    simp only [lex_iff, Operation.setVariable.sizeOf_spec, Operation.getMember.sizeOf_spec,
      Operation.setMember.sizeOf_spec, Operation.getIndex.sizeOf_spec,
      Operation.setIndex.sizeOf_spec, Operation.call.sizeOf_spec,
      Operation.createList.sizeOf_spec, Operation.binary.sizeOf_spec, Operation.unary.sizeOf_spec,
      Operation.stackPush.sizeOf_spec, Operation.stackPop.sizeOf_spec]
    omega

/-- Operands set nothing aside. -/
theorem evaluateAll_setsAside (depth : Nat) (scope : ScopeId) (operations : List Operation)
    (h : ∀ operation ∈ operations, operation.Leaves 0) :
    SetsAside 0 (evaluateAll depth scope operations) := by
  cases operations with
  | nil => rw [evaluateAll]; exact .pure _
  | cons operation rest =>
    obtain ⟨hoperation, hrest⟩ := List.forall_mem_cons.mp h
    rw [evaluateAll]
    refine (evaluate_setsAside depth scope operation 0 hoperation).bindRight fun value => ?_
    exact (evaluateAll_setsAside depth scope rest hrest).bindRight fun values => .pure _
termination_by (maxDepth - depth, sizeOf operations)
decreasing_by all_goals subst_vars; simp only [lex_iff, List.cons.sizeOf_spec]; omega

/-- A statement sets nothing aside. -/
theorem execute_setsAside (depth : Nat) (scope : ScopeId) (operation : Operation)
    (h : operation.Runs) : SetsAside 0 (execute depth scope operation) := by
  cases h with
  | giveBack hvalue =>
    rw [execute]
    exact (evaluate_setsAside depth scope _ 0 hvalue).bindRight fun value => .pure _
  | ifThen hcondition hconsequence =>
    rw [execute]
    refine (evaluate_setsAside depth scope _ 0 hcondition).bindRight fun condition => ?_
    split
    · exact executeAll_setsAside depth scope .null _ hconsequence
    · exact .pure _
  | ifThenElse hcondition hconsequence halternative =>
    rw [execute]
    refine (evaluate_setsAside depth scope _ 0 hcondition).bindRight fun condition => ?_
    split
    · exact executeAll_setsAside depth scope .null _ hconsequence
    · exact executeAll_setsAside depth scope .null _ halternative
  | block hbody =>
    rw [execute]
    exact executeAll_setsAside depth scope .null _ hbody
  | value hvalue =>
    rw [execute_of_leaves hvalue]
    exact (evaluate_setsAside depth scope operation 0 hvalue).bindRight fun value => .pure _
termination_by (maxDepth - depth, sizeOf operation + 1)
decreasing_by
  all_goals
    subst_vars
    simp only [lex_iff, Operation.giveBack.sizeOf_spec, Operation.ifThen.sizeOf_spec,
      Operation.ifThenElse.sizeOf_spec, Operation.block.sizeOf_spec]
    omega

/-- Statements in a row set nothing aside. -/
theorem executeAll_setsAside (depth : Nat) (scope : ScopeId) (before : Value)
    (operations : List Operation) (h : ∀ operation ∈ operations, operation.Runs) :
    SetsAside 0 (executeAll depth scope before operations) := by
  cases operations with
  | nil => rw [executeAll]; exact .pure _
  | cons operation rest =>
    obtain ⟨hoperation, hrest⟩ := List.forall_mem_cons.mp h
    rw [executeAll]
    refine (execute_setsAside depth scope operation hoperation).bindRight fun completion => ?_
    cases completion with
    | finished value => exact executeAll_setsAside depth scope value rest hrest
    | returned value => exact .pure _
termination_by (maxDepth - depth, sizeOf operations + 1)
decreasing_by all_goals subst_vars; simp only [lex_iff, List.cons.sizeOf_spec]; omega

/-- A call sets nothing aside. -/
theorem call_setsAside (depth : Nat) (callee : Value) (arguments : List Value) :
    SetsAside 0 (TreeScript.call depth callee arguments) := by
  rw [TreeScript.call]
  intro heap output hheap
  obtain ⟨found, hcalled, hfound⟩ := calledFunction_apply callee hheap
  simp only [bind_apply, hcalled]
  cases found with
  | error fault => exact ⟨.error fault, heap, output, [], fun _ => rfl, hheap, hfound⟩
  | ok callable =>
    cases callable with
    | builtin which =>
      exact ((SetsAside.checkArity which arguments.length).bindRight fun _ =>
        .builtin which arguments) heap output hheap
    | closure name parameters body outer =>
      dsimp only
      by_cases hdepth : depth < maxDepth
      · simp only [if_pos hdepth]
        refine SetsAside.bindRight (.allocate fun heap hheap => ?_) (fun inner => ?_) heap output
          hheap
        · unfold Heap.IsSound
          rw [Heap.functions_enterCall]
          exact hheap
        · have hbody := executeAll_setsAside (depth + 1) inner .null body hfound
          exact hbody.bindRight fun _ => .pure _
      · simp only [if_neg hdepth]
        have hfault : Fault.callsTooDeep.IsOrdinary := rfl
        exact SetsAside.throw hfault heap output hheap
termination_by (maxDepth - depth, 0)
decreasing_by all_goals simp only [lex_iff]; omega

end

/-! ## Calls of closures -/

section

variable {machine : Machine} {function : FunctionId} {name : String} {parameters : List String}
  {body : List Operation} {outer : ScopeId} {depth : Nat}

/-- A closure runs its body in a scope of its own. -/
theorem call_closure
    (h : machine.heap.callable? function = some (.closure name parameters body outer))
    (hdepth : depth < maxDepth) (arguments : List Value) :
    call depth (.function function) arguments machine =
      (executeAll (depth + 1) (machine.heap.enterCall outer parameters arguments).1 .null body >>=
        fun completion => pure completion.callValue : Evaluation Value)
        { machine with heap := (machine.heap.enterCall outer parameters arguments).2 } := by
  have hfound : Evaluation.calledFunction (.function function) machine =
      (.ok (.closure name parameters body outer), machine) := by
    simp only [Evaluation.calledFunction, Evaluation.consult, h]
  rw [call, bind_apply, hfound]
  dsimp only
  rw [if_pos hdepth]
  rfl

/-- A closure that a variable holds can be called by the name of the variable. -/
theorem evaluate_call_closure {scope : ScopeId} {variableName : String}
    (hvariable : machine.heap.scopes.get? scope variableName = some (.function function))
    (h : machine.heap.callable? function = some (.closure name parameters body outer))
    (hdepth : depth < maxDepth) :
    evaluate depth scope (.call (.getVariable variableName) []) machine =
      (executeAll (depth + 1) (machine.heap.enterCall outer parameters []).1 .null body >>=
        fun completion => pure completion.callValue : Evaluation Value)
        { machine with heap := (machine.heap.enterCall outer parameters []).2 } := by
  have hread : Evaluation.lookUp scope variableName machine =
      (.ok (.function function), machine) := by
    simp only [Evaluation.lookUp, Evaluation.consult, hvariable]
  rw [← call_closure h hdepth, evaluate, evaluate, bind_apply, hread, evaluateAll]
  rfl

end

end TreeScript
