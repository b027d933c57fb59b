import TreeScript.Proofs.Heap.Writing
import TreeScript.Proofs.Machine.Stack

/-!
# Runs in lockstep

An operation that is run on two machines whose heaps are alike does the same on both: it ends with
values that are alike or with the same fault, prints the same lines and leaves heaps that are
alike. On the first machine it has changed nothing that is not matched. So what a run does depends
on nothing but what is matched, and reaches nothing else.

The matching is fixed for the whole run. It holds the places that the run is going to use, up to a
limit that the heap does not outgrow.
-/

namespace TreeScript

variable {matching : Matching} {limit : Shelf → Nat}

namespace Machine

/-- Machines with heaps and set-aside values that are alike. -/
structure Joined (matching : Matching) (limit : Shelf → Nat) (machine other : Machine) :
    Prop where
  heap : machine.heap.Joined matching limit other.heap
  stack : List.Forall₂ (Value.Matches matching) machine.stack other.stack

/-- Two machines have been taken to machines that are alike, with the same lines printed on the
way, and the first of them has been spared where it is not matched. -/
structure Advances (matching : Matching) (limit : Shelf → Nat)
    (machine other after after' : Machine) : Prop where
  joined : after.Joined matching limit after'
  spares : machine.heap.Spares matching after.heap
  lines : ∃ lines : Array String,
    after.output = machine.output ++ lines ∧ after'.output = other.output ++ lines

namespace Advances

variable {machine other after after' last last' : Machine}

/-- A step that prints nothing. -/
theorem of_heap {heap heap' : Heap} (hjoined : machine.Joined matching limit other)
    (h : machine.heap.Advances matching limit heap heap') :
    machine.Advances matching limit other { machine with heap } { other with heap := heap' } where
  joined := ⟨h.joined, hjoined.stack⟩
  spares := h.spares
  lines := ⟨#[], Array.append_empty.symm, Array.append_empty.symm⟩

/-- A step that changes the values set aside. -/
theorem of_stack {stack stack' : List Value} (hjoined : machine.Joined matching limit other)
    (h : List.Forall₂ (Value.Matches matching) stack stack') :
    machine.Advances matching limit other { machine with stack }
      { other with stack := stack' } where
  joined := ⟨hjoined.heap, h⟩
  spares := .refl matching machine.heap
  lines := ⟨#[], Array.append_empty.symm, Array.append_empty.symm⟩

/-- Machines that are joined stay so without a step. -/
theorem refl (h : machine.Joined matching limit other) :
    machine.Advances matching limit other machine other :=
  of_stack h h.stack

/-- Advances follow one another. -/
theorem trans (h : machine.Advances matching limit other after after')
    (hnext : after.Advances matching limit after' last last') :
    machine.Advances matching limit other last last' where
  joined := hnext.joined
  spares := h.spares.trans hnext.spares
  lines := by
    obtain ⟨lines, hlines, hlines'⟩ := h.lines
    obtain ⟨more, hmore, hmore'⟩ := hnext.lines
    refine ⟨lines ++ more, ?_, ?_⟩
    · rw [hmore, hlines, Array.append_assoc]
    · rw [hmore', hlines', Array.append_assoc]

end Advances

end Machine

open Machine

namespace Evaluation

variable {α β : Type} {given : Prop}

/-- Two steps that do the same on machines that are alike, under an assumption and as long as the
first machine stays within the limit. Whatever is assumed, the first step makes no heap smaller. -/
structure Corresponds (matching : Matching) (limit : Shelf → Nat) (given : Prop)
    (related : α → α → Prop) (step step' : Evaluation α) : Prop where
  enlarges : ∀ machine : Machine, machine.heap.Enlarges (step machine).2.heap
  agree : given → ∀ {machine other : Machine}, machine.Joined matching limit other →
    (∀ shelf, (step machine).2.heap.size shelf ≤ limit shelf) →
      Agree related (step machine).1 (step' other).1 ∧
        machine.Advances matching limit other (step machine).2 (step' other).2

namespace Corresponds

variable {related : α → α → Prop} {goal : β → β → Prop}

/-- What follows a step may count on its results being related. -/
theorem bind {step step' : Evaluation α} {next next' : α → Evaluation β}
    (h : Corresponds matching limit given related step step')
    (hnext : ∀ value value',
      Corresponds matching limit (given ∧ related value value') goal (next value) (next' value')) :
    Corresponds matching limit given goal (step >>= next) (step' >>= next') where
  enlarges machine := by
    have hstep := h.enlarges machine
    rw [bind_apply]
    rcases hrun : step machine with ⟨fault | value, after⟩
    · rwa [hrun] at hstep
    · rw [hrun] at hstep
      exact fun shelf => Nat.le_trans (hstep shelf) ((hnext value value).enlarges after shelf)
  agree hgiven {machine other} hjoined hlimit := by
    rw [bind_apply] at hlimit ⊢
    rw [bind_apply]
    have hstep := h.agree hgiven hjoined
    rcases hrun : step machine with ⟨result, after⟩
    rcases hrun' : step' other with ⟨result', after'⟩
    rw [hrun, hrun'] at hstep
    rw [hrun] at hlimit
    cases result with
    | error fault =>
      obtain ⟨hresult, hadvance⟩ := hstep hlimit
      cases hresult
      exact ⟨.error fault, hadvance⟩
    | ok value =>
      have hwithin : ∀ shelf, after.heap.size shelf ≤ limit shelf := fun shelf =>
        Nat.le_trans ((hnext value value).enlarges after shelf) (hlimit shelf)
      obtain ⟨hresult, hadvance⟩ := hstep hwithin
      cases hresult with
      | ok hvalue =>
        obtain ⟨hfinal, hlater⟩ := (hnext value _).agree ⟨hgiven, hvalue⟩ hadvance.joined hlimit
        exact ⟨hfinal, hadvance.trans hlater⟩

/-- A stronger assumption may be made. -/
theorem weaken {assumed : Prop} {step step' : Evaluation α}
    (h : Corresponds matching limit assumed related step step') (himp : given → assumed) :
    Corresponds matching limit given related step step' :=
  ⟨h.enlarges, fun hgiven => h.agree (himp hgiven)⟩

/-- The assumption may be used to tell the steps apart. -/
theorem assuming {step step' : Evaluation α}
    (henlarges : ∀ machine : Machine, machine.heap.Enlarges (step machine).2.heap)
    (h : given → Corresponds matching limit given related step step') :
    Corresponds matching limit given related step step' :=
  ⟨henlarges, fun hgiven => (h hgiven).agree hgiven⟩

/-- Steps that only return correspond if their values do. -/
theorem pure {value value' : α} (h : given → related value value') :
    Corresponds matching limit given related (Pure.pure value) (Pure.pure value') where
  enlarges _ _ := Nat.le_refl _
  agree hgiven {_ _} hjoined _ := ⟨.ok (h hgiven), .refl hjoined⟩

/-- The same fault is thrown on both sides. -/
theorem throw (fault : Fault) :
    Corresponds matching limit given related (MonadExcept.throw fault)
      (MonadExcept.throw fault) where
  enlarges _ _ := Nat.le_refl _
  agree _ {_ _} hjoined _ := ⟨.error fault, .refl hjoined⟩

/-- Conditions that agree lead the same way. -/
theorem branch {condition condition' : Bool} {first first' second second' : Evaluation α}
    (hcondition : given → condition = condition')
    (hfirst : Corresponds matching limit given related first first')
    (hsecond : Corresponds matching limit given related second second') :
    Corresponds matching limit given related (if condition then first else second)
      (if condition' then first' else second') := by
  cases condition with
  | true =>
    refine assuming hfirst.enlarges fun hgiven => ?_
    rw [← hcondition hgiven]
    exact hfirst
  | false =>
    refine assuming hsecond.enlarges fun hgiven => ?_
    rw [← hcondition hgiven]
    exact hsecond

/-- Questions with agreeing answers correspond. -/
theorem consult {question question' : Heap → Except Fault α}
    (h : given → ∀ {heap other : Heap}, heap.Joined matching limit other →
      Agree related (question heap) (question' other)) :
    Corresponds matching limit given related (Evaluation.consult question)
      (Evaluation.consult question') where
  enlarges _ _ := Nat.le_refl _
  agree hgiven {_ _} hjoined _ := ⟨h hgiven hjoined.heap, .refl hjoined⟩

/-- Changes of the heap correspond if they go on from joined heaps to joined heaps. -/
theorem update {change change' : Heap → Except Fault Heap}
    (henlarges : ∀ {heap after : Heap}, change heap = .ok after → heap.Enlarges after)
    (h : given → ∀ {heap other : Heap}, heap.Joined matching limit other →
      Agree (heap.Advances matching limit) (change heap) (change' other)) :
    Corresponds matching limit given (fun _ _ => True) (Evaluation.update change)
      (Evaluation.update change') where
  enlarges machine := by
    unfold Evaluation.update
    split
    · rename_i heap hheap
      exact henlarges hheap
    · exact fun _ => Nat.le_refl _
  agree hgiven {machine other} hjoined _ := by
    have hagree := h hgiven hjoined.heap
    unfold Evaluation.update
    generalize change machine.heap = result, change' other.heap = result' at hagree
    cases hagree with
    | ok hadvance => exact ⟨.ok trivial, .of_heap hjoined hadvance⟩
    | error fault => exact ⟨.error fault, .refl hjoined⟩

/-- New entries correspond if what is made of joined heaps is joined. -/
theorem allocate {make make' : Heap → α × Heap}
    (henlarges : ∀ heap : Heap, heap.Enlarges (make heap).2)
    (h : given → ∀ {heap other : Heap}, heap.Joined matching limit other →
      (∀ shelf, (make heap).2.size shelf ≤ limit shelf) →
        related (make heap).1 (make' other).1 ∧
          heap.Advances matching limit (make heap).2 (make' other).2) :
    Corresponds matching limit given related (Evaluation.allocate make)
      (Evaluation.allocate make') where
  enlarges machine := henlarges machine.heap
  agree hgiven {machine other} hjoined hlimit := by
    obtain ⟨hmade, hadvance⟩ := h hgiven hjoined.heap hlimit
    exact ⟨.ok hmade, .of_heap hjoined hadvance⟩

/-! ## Single steps -/

variable {value value' callee callee' : Value} {values values' : List Value}
  {scope scope' : ScopeId}

/-- A name has matching values in paired scopes. -/
theorem lookUp (scope scope' : ScopeId) (name : String) :
    Corresponds matching limit (matching.Pairs scope.place scope'.place) (Value.Matches matching)
      (Evaluation.lookUp scope name) (Evaluation.lookUp scope' name) := by
  refine consult fun hscope {heap other} hjoined => ?_
  have hget := hjoined.rel_get? hscope name
  generalize heap.scopes.get? scope name = found, other.scopes.get? scope' name = found' at hget
  cases hget with
  | none => exact .error _
  | some hvalue => exact .ok hvalue

/-- Matching values are bound in paired scopes. -/
theorem bindName (scope scope' : ScopeId) (name : String) (value value' : Value)
    (policy : Policy) (declaration : Bool) :
    Corresponds matching limit
      (matching.Pairs scope.place scope'.place ∧ value.Matches matching value')
      (fun _ _ => True) (Evaluation.bindName scope name value policy declaration)
      (Evaluation.bindName scope' name value' policy declaration) := by
  refine update (fun {heap after} hafter => ?_) fun hgiven _ _ hjoined => ?_
  · obtain ⟨scopes, hscopes, hheap⟩ := bind_eq_ok.mp hafter
    cases hheap
    exact Heap.enlarges_of_bind hscopes
  · exact hjoined.agree_bind hgiven.1 name hgiven.2 policy declaration

/-- Lists of matching values match. -/
theorem newList (values values' : List Value) :
    Corresponds matching limit (List.Forall₂ (Value.Matches matching) values values')
      (Value.Matches matching) (Evaluation.allocate (·.newList values))
      (Evaluation.allocate (·.newList values')) :=
  allocate (fun heap => (heap.adds_newList values).enlarges)
    fun hvalues _ _ hjoined hlimit => hjoined.newList hvalues hlimit

/-- Matching values are set aside together. -/
theorem setAside (value value' : Value) :
    Corresponds matching limit (value.Matches matching value') (fun _ _ => True)
      (Evaluation.setAside value) (Evaluation.setAside value') where
  enlarges _ _ := Nat.le_refl _
  agree hvalue {_ _} hjoined _ := ⟨.ok trivial, .of_stack hjoined (.cons hvalue hjoined.stack)⟩

/-- What was set aside together is taken back together. -/
theorem takeBack :
    Corresponds matching limit given (Value.Matches matching) Evaluation.takeBack
      Evaluation.takeBack where
  enlarges machine := by
    unfold Evaluation.takeBack
    split <;> exact fun _ => Nat.le_refl _
  agree _ {machine other} hjoined _ := by
    obtain ⟨heap, stack, output⟩ := machine
    obtain ⟨heap', stack', output'⟩ := other
    have hstack : List.Forall₂ (Value.Matches matching) stack stack' := hjoined.stack
    cases hstack with
    | nil => exact ⟨.error .emptyStack, .refl hjoined⟩
    | cons hvalue hrest => exact ⟨.ok hvalue, .of_stack hjoined hrest⟩

/-- Matching values print the same line. -/
theorem print (values values' : List Value) :
    Corresponds matching limit (List.Forall₂ (Value.Matches matching) values values')
      (Value.Matches matching) (Builtin.print.apply values) (Builtin.print.apply values') where
  enlarges _ _ := Nat.le_refl _
  agree hvalues {machine other} hjoined _ := by
    have htexts := map_eq_of_forall₂ hvalues hjoined.heap.render_eq
    refine ⟨.ok (.plain rfl), ⟨hjoined.heap, hjoined.stack⟩, .refl matching machine.heap,
      #[" ".intercalate (values.map machine.heap.render)], ?_, ?_⟩
    · exact Array.push_eq_append
    · rw [htexts]
      exact Array.push_eq_append

/-- Built-in functions of matching values have matching results. -/
theorem builtin (which : Builtin) (values values' : List Value) :
    Corresponds matching limit (List.Forall₂ (Value.Matches matching) values values')
      (Value.Matches matching) (which.apply values) (which.apply values') := by
  cases which with
  | print => exact print values values'
  | len =>
    simp only [Builtin.apply]
    refine consult fun hvalues {heap other} hjoined => ?_
    have hfirst : (values.headD .null).Matches matching (values'.headD .null) := by
      cases hvalues with
      | nil => exact .plain rfl
      | cons hvalue _ => exact hvalue
    rw [hjoined.length?_eq hfirst, hfirst.type_eq]
    cases other.length? (values'.headD .null) with
    | none => exact .error _
    | some count => exact .ok (.plain rfl)
  | object =>
    exact allocate (fun heap => (heap.adds_newObject .empty).enlarges)
      fun _ _ _ hjoined hlimit => hjoined.newObject hlimit
  | list => exact newList values values'

/-- The count of arguments is checked with one outcome. -/
theorem checkArity (which : Builtin) (values values' : List Value) :
    Corresponds matching limit (List.Forall₂ (Value.Matches matching) values values')
      (fun _ _ => True) (Evaluation.consult fun _ => which.checkArity values.length)
      (Evaluation.consult fun _ => which.checkArity values'.length) := by
  refine consult fun hvalues _ _ _ => ?_
  rw [hvalues.length_eq]
  cases which.checkArity values'.length with
  | error fault => exact .error fault
  | ok => exact .ok trivial

/-- Matching values are called as matching functions. -/
theorem calledFunction (callee callee' : Value) :
    Corresponds matching limit (callee.Matches matching callee')
      (fun callable callable' =>
        (Content.callable callable).Matches matching (.callable callable'))
      (Evaluation.calledFunction callee) (Evaluation.calledFunction callee') := by
  refine consult fun hcallee {heap other} hjoined => ?_
  cases hcallee with
  | plain hplain =>
    cases callee with
    | list | object | function => cases hplain
    | _ => exact .error _
  | list | object => exact .error _
  | @function id id' hpair =>
    have hcallable := hjoined.rel_callable? hpair
    dsimp only
    generalize heap.callable? id = found, other.callable? id' = found' at hcallable
    cases hcallable with
    | none => exact .error _
    | some hmatch => exact .ok hmatch

/-- Calls enter paired scopes. -/
theorem enterCall (outer outer' : ScopeId) (names : List String) (values values' : List Value) :
    Corresponds matching limit
      (matching.Pairs outer.place outer'.place ∧
        List.Forall₂ (Value.Matches matching) values values')
      (fun scope scope' => matching.Pairs scope.place scope'.place)
      (Evaluation.allocate (·.enterCall outer names values))
      (Evaluation.allocate (·.enterCall outer' names values')) := by
  refine allocate (fun heap shelf => ?_) fun hgiven _ _ hjoined hlimit => ?_
  · rw [Heap.size_enterCall]
    exact (heap.adds_newScope outer).enlarges shelf
  · exact hjoined.enterCall hgiven.1 names hgiven.2 hlimit

end Corresponds

end Evaluation

/-! ## Operations -/

/-- Ways for a statement to end that are alike. -/
inductive Completion.Matches (matching : Matching) : Completion → Completion → Prop
  | finished {value value' : Value} : value.Matches matching value' →
      Matches matching (.finished value) (.finished value')
  | returned {value value' : Value} : value.Matches matching value' →
      Matches matching (.returned value) (.returned value')

namespace Completion.Matches

variable {completion completion' : Completion}

/-- Matching completions have matching values. -/
theorem value (h : completion.Matches matching completion') :
    completion.value.Matches matching completion'.value := by
  cases h <;> assumption

/-- Matching completions give matching values back to a call. -/
theorem callValue (h : completion.Matches matching completion') :
    completion.callValue.Matches matching completion'.callValue := by
  cases h with
  | finished => exact .plain rfl
  | returned hvalue => exact hvalue

end Completion.Matches

open Evaluation

/-- An operator does the same to operands that do the same. -/
theorem binary_corresponds {depth : Nat} {scope scope' : ScopeId} {left right : Operation}
    {given : Prop} (operator : BinaryOperator)
    (hleft : Corresponds matching limit given (Value.Matches matching)
      (evaluate depth scope left) (evaluate depth scope' left))
    (hright : Corresponds matching limit given (Value.Matches matching)
      (evaluate depth scope right) (evaluate depth scope' right)) :
    Corresponds matching limit given (Value.Matches matching)
      (evaluate depth scope (.binary operator left right))
      (evaluate depth scope' (.binary operator left right)) := by
  by_cases hboth : operator = .both
  · subst hboth
    rw [evaluate, evaluate]
    refine hleft.bind fun left left' => ?_
    refine .branch (fun hgiven => hgiven.2.isTruthy_eq) ?_ (.pure fun _ => .plain rfl)
    refine (hright.weaken And.left).bind fun right right' => .pure fun hgiven => ?_
    rw [hgiven.2.isTruthy_eq]
    exact .plain rfl
  by_cases heither : operator = .either
  · subst heither
    rw [evaluate, evaluate]
    refine hleft.bind fun left left' => ?_
    refine .branch (fun hgiven => hgiven.2.isTruthy_eq) (.pure fun _ => .plain rfl) ?_
    refine (hright.weaken And.left).bind fun right right' => .pure fun hgiven => ?_
    rw [hgiven.2.isTruthy_eq]
    exact .plain rfl
  rw [evaluate_binary hboth heither, evaluate_binary hboth heither]
  refine hleft.bind fun left left' => (hright.weaken And.left).bind fun right right' => ?_
  exact .consult fun hgiven _ _ hjoined => hjoined.agree_applyBinary operator hgiven.1.2 hgiven.2

mutual

/-- One operation has matching values in paired scopes. -/
theorem evaluate_corresponds (depth : Nat) (scope scope' : ScopeId) (operation : Operation) :
    Corresponds matching limit (matching.Pairs scope.place scope'.place) (Value.Matches matching)
      (evaluate depth scope operation) (evaluate depth scope' operation) := by
  cases operation with
  | literal value =>
    rw [evaluate, evaluate]
    refine .pure fun _ => .plain ?_
    cases value <;> rfl
  | getVariable name =>
    rw [evaluate, evaluate]
    exact .lookUp scope scope' name
  | setVariable name value policy declaration =>
    rw [evaluate, evaluate]
    refine (evaluate_corresponds depth scope scope' value).bind fun value value' => ?_
    refine (Corresponds.bindName scope scope' name value value' policy declaration).bind ?_
    exact fun _ _ => .pure fun hgiven => hgiven.1.2
  | getMember object member =>
    rw [evaluate, evaluate]
    refine (evaluate_corresponds depth scope scope' object).bind fun object object' => ?_
    exact .consult fun hgiven _ _ hjoined => hjoined.agree_getMember hgiven.2 member
  | setMember object member value =>
    rw [evaluate, evaluate]
    refine (evaluate_corresponds depth scope scope' object).bind fun object object' => ?_
    refine ((evaluate_corresponds depth scope scope' value).weaken And.left).bind
      fun value value' => ?_
    refine (Corresponds.update Heap.enlarges_of_setMember fun hgiven _ _ hjoined =>
      hjoined.agree_setMember hgiven.1.2 member hgiven.2).bind ?_
    exact fun _ _ => .pure fun hgiven => hgiven.1.2
  | getIndex object index =>
    rw [evaluate, evaluate]
    refine (evaluate_corresponds depth scope scope' object).bind fun object object' => ?_
    refine ((evaluate_corresponds depth scope scope' index).weaken And.left).bind
      fun index index' => ?_
    exact .consult fun hgiven _ _ hjoined => hjoined.agree_getIndex hgiven.1.2 hgiven.2
  | setIndex object index value =>
    rw [evaluate, evaluate]
    refine (evaluate_corresponds depth scope scope' object).bind fun object object' => ?_
    refine ((evaluate_corresponds depth scope scope' index).weaken And.left).bind
      fun index index' => ?_
    refine ((evaluate_corresponds depth scope scope' value).weaken fun hgiven => hgiven.1.1).bind
      fun value value' => ?_
    refine (Corresponds.update Heap.enlarges_of_setIndex fun hgiven _ _ hjoined =>
      hjoined.agree_setIndex hgiven.1.1.2 hgiven.1.2 hgiven.2).bind ?_
    exact fun _ _ => .pure fun hgiven => hgiven.1.2
  | call callee arguments =>
    rw [evaluate, evaluate]
    refine (evaluate_corresponds depth scope scope' callee).bind fun callee callee' => ?_
    refine ((evaluateAll_corresponds depth scope scope' arguments).weaken And.left).bind
      fun values values' => ?_
    exact (call_corresponds depth callee callee' values values').weaken
      fun hgiven => ⟨hgiven.1.2, hgiven.2⟩
  | createList elements =>
    rw [evaluate, evaluate]
    refine (evaluateAll_corresponds depth scope scope' elements).bind fun values values' => ?_
    exact (Corresponds.newList values values').weaken And.right
  | binary operator left right =>
    exact binary_corresponds operator (evaluate_corresponds depth scope scope' left)
      (evaluate_corresponds depth scope scope' right)
  | unary operator operand =>
    rw [evaluate, evaluate]
    refine (evaluate_corresponds depth scope scope' operand).bind fun operand operand' => ?_
    exact .consult fun hgiven _ _ _ => Value.agree_applyUnary operator hgiven.2
  | stackPush inner =>
    rw [evaluate, evaluate]
    refine (evaluate_corresponds depth scope scope' inner).bind fun value value' => ?_
    refine ((Corresponds.setAside value value').weaken And.right).bind ?_
    exact fun _ _ => .pure fun hgiven => hgiven.1.2
  | stackPop inner =>
    rw [evaluate, evaluate]
    exact (evaluate_corresponds depth scope scope' inner).bind fun _ _ => .takeBack
  | function name parameters body =>
    rw [evaluate, evaluate]
    exact .allocate (fun heap => (heap.adds_newFunction _).enlarges)
      fun hscope _ _ hjoined hlimit => hjoined.newFunction (.closure hscope) hlimit
  | giveBack value => rw [evaluate, evaluate]; exact .throw _
  | ifThen condition consequence => rw [evaluate, evaluate]; exact .throw _
  | ifThenElse condition consequence alternative => rw [evaluate, evaluate]; exact .throw _
  | block body => rw [evaluate, evaluate]; exact .throw _
termination_by (maxDepth - depth, sizeOf operation)
decreasing_by
  all_goals
    simp only [lex_iff, Operation.setVariable.sizeOf_spec, Operation.getMember.sizeOf_spec,
      Operation.setMember.sizeOf_spec, Operation.getIndex.sizeOf_spec,
      Operation.setIndex.sizeOf_spec, Operation.call.sizeOf_spec,
      Operation.createList.sizeOf_spec, Operation.binary.sizeOf_spec, Operation.unary.sizeOf_spec,
      Operation.stackPush.sizeOf_spec, Operation.stackPop.sizeOf_spec]
    omega

/-- Operands have matching values, each with its own counterpart. -/
theorem evaluateAll_corresponds (depth : Nat) (scope scope' : ScopeId)
    (operations : List Operation) :
    Corresponds matching limit (matching.Pairs scope.place scope'.place)
      (List.Forall₂ (Value.Matches matching))
      (evaluateAll depth scope operations) (evaluateAll depth scope' operations) := by
  cases operations with
  | nil =>
    rw [evaluateAll, evaluateAll]
    exact .pure fun _ => .nil
  | cons operation rest =>
    rw [evaluateAll, evaluateAll]
    refine (evaluate_corresponds depth scope scope' operation).bind fun value value' => ?_
    refine ((evaluateAll_corresponds depth scope scope' rest).weaken And.left).bind
      fun values values' => ?_
    exact .pure fun hgiven => .cons hgiven.1.2 hgiven.2
termination_by (maxDepth - depth, sizeOf operations)
decreasing_by all_goals simp only [lex_iff, List.cons.sizeOf_spec]; omega

/-- One statement has matching completions in paired scopes. -/
theorem execute_corresponds (depth : Nat) (scope scope' : ScopeId) (operation : Operation) :
    Corresponds matching limit (matching.Pairs scope.place scope'.place)
      (Completion.Matches matching) (execute depth scope operation)
      (execute depth scope' operation) := by
  cases operation with
  | giveBack value =>
    rw [execute, execute]
    refine (evaluate_corresponds depth scope scope' value).bind fun value value' => ?_
    exact .pure fun hgiven => .returned hgiven.2
  | block body =>
    rw [execute, execute]
    exact (executeAll_corresponds depth scope scope' .null .null body).weaken
      fun hscope => ⟨hscope, .plain rfl⟩
  | ifThen condition consequence =>
    rw [execute, execute]
    refine (evaluate_corresponds depth scope scope' condition).bind fun test test' => ?_
    refine .branch (fun hgiven => hgiven.2.isTruthy_eq) ?_ ?_
    · exact (executeAll_corresponds depth scope scope' .null .null consequence).weaken
        fun hgiven => ⟨hgiven.1, .plain rfl⟩
    · exact .pure fun _ => .finished (.plain rfl)
  | ifThenElse condition consequence alternative =>
    rw [execute, execute]
    refine (evaluate_corresponds depth scope scope' condition).bind fun test test' => ?_
    refine .branch (fun hgiven => hgiven.2.isTruthy_eq) ?_ ?_
    · exact (executeAll_corresponds depth scope scope' .null .null consequence).weaken
        fun hgiven => ⟨hgiven.1, .plain rfl⟩
    · exact (executeAll_corresponds depth scope scope' .null .null alternative).weaken
        fun hgiven => ⟨hgiven.1, .plain rfl⟩
  | _ =>
    rw [execute, execute]
    · refine (evaluate_corresponds depth scope scope' _).bind fun value value' => ?_
      exact .pure fun hgiven => .finished hgiven.2
    all_goals
      intros
      rename_i heq
      cases heq
termination_by (maxDepth - depth, sizeOf operation + 1)
decreasing_by
  all_goals
    simp only [lex_iff, Operation.giveBack.sizeOf_spec, Operation.ifThen.sizeOf_spec,
      Operation.ifThenElse.sizeOf_spec, Operation.block.sizeOf_spec]
    omega

/-- Statements in a row have matching completions. -/
theorem executeAll_corresponds (depth : Nat) (scope scope' : ScopeId) (before before' : Value)
    (operations : List Operation) :
    Corresponds matching limit
      (matching.Pairs scope.place scope'.place ∧ before.Matches matching before')
      (Completion.Matches matching) (executeAll depth scope before operations)
      (executeAll depth scope' before' operations) := by
  cases operations with
  | nil =>
    rw [executeAll, executeAll]
    exact .pure fun hgiven => .finished hgiven.2
  | cons operation rest =>
    rw [executeAll, executeAll]
    refine ((execute_corresponds depth scope scope' operation).weaken And.left).bind
      fun completion completion' => ?_
    cases completion with
    | finished value =>
      have hrest (value') := executeAll_corresponds depth scope scope' value value' rest
      refine .assuming (hrest value).enlarges fun hgiven => ?_
      cases hgiven.2 with
      | finished hvalue => exact (hrest _).weaken fun _ => ⟨hgiven.1.1, hvalue⟩
    | returned value =>
      refine .assuming (fun _ _ => Nat.le_refl _) fun hgiven => ?_
      cases hgiven.2 with
      | returned hvalue => exact .pure fun _ => .returned hvalue
termination_by (maxDepth - depth, sizeOf operations + 1)
decreasing_by all_goals simp only [lex_iff, List.cons.sizeOf_spec]; omega

/-- Calls of matching functions with matching values have matching results. -/
theorem call_corresponds (depth : Nat) (callee callee' : Value) (values values' : List Value) :
    Corresponds matching limit
      (callee.Matches matching callee' ∧ List.Forall₂ (Value.Matches matching) values values')
      (Value.Matches matching) (call depth callee values) (call depth callee' values') := by
  rw [call, call]
  refine ((Corresponds.calledFunction callee callee').weaken And.left).bind
    fun callable callable' => ?_
  cases callable with
  | builtin which =>
    have happly : Corresponds matching limit _ (Value.Matches matching) _ _ :=
      (Corresponds.checkArity which values values').bind fun _ _ =>
        (Corresponds.builtin which values values').weaken And.left
    refine .assuming happly.enlarges fun hgiven => ?_
    cases hgiven.2
    exact happly.weaken fun _ => hgiven.1.2
  | closure name parameters body outer =>
    dsimp only
    by_cases hdepth : depth < maxDepth
    · have hrun (outer' : ScopeId) : Corresponds matching limit
          (matching.Pairs outer.place outer'.place ∧
            List.Forall₂ (Value.Matches matching) values values') (Value.Matches matching)
          (do
            let scope ← allocate (·.enterCall outer parameters values)
            return (← executeAll (depth + 1) scope .null body).callValue)
          (do
            let scope ← allocate (·.enterCall outer' parameters values')
            return (← executeAll (depth + 1) scope .null body).callValue) := by
        refine (Corresponds.enterCall outer outer' parameters values values').bind
          fun scope scope' => ?_
        refine ((executeAll_corresponds (depth + 1) scope scope' .null .null body).weaken
          fun hgiven => ⟨hgiven.2, .plain rfl⟩).bind fun completion completion' => ?_
        exact .pure fun hgiven => hgiven.2.callValue
      rw [if_pos hdepth]
      refine .assuming (hrun outer).enlarges fun hgiven => ?_
      cases hgiven.2 with
      | closure houter =>
        dsimp only
        rw [if_pos hdepth]
        exact (hrun _).weaken fun _ => ⟨houter, hgiven.1.2⟩
    · rw [if_neg hdepth]
      refine .assuming (fun _ _ => Nat.le_refl _) fun hgiven => ?_
      cases hgiven.2 with
      | closure =>
        dsimp only
        rw [if_neg hdepth]
        exact .throw _
termination_by (maxDepth - depth, 0)
decreasing_by all_goals simp only [lex_iff]; omega

end

/-- A program does the same in scopes that stand for each other. What was set aside before is
forgotten first, so that it need not be alike. -/
theorem Program.run_agrees (program : Program) {scope scope' : ScopeId}
    (hscope : matching.Pairs scope.place scope'.place) {machine other : Machine}
    (hjoined : machine.heap.Joined matching limit other.heap)
    (hlimit : ∀ shelf, (program.run scope machine).2.heap.size shelf ≤ limit shelf) :
    Agree (Value.Matches matching) (program.run scope machine).1 (program.run scope' other).1 ∧
      machine.Advances matching limit other (program.run scope machine).2
        (program.run scope' other).2 := by
  have hbody : Corresponds matching limit
      (matching.Pairs scope.place scope'.place ∧ Value.null.Matches matching .null)
      (Value.Matches matching)
      (do return (← executeAll 0 scope .null program.body).value)
      (do return (← executeAll 0 scope' .null program.body).value) :=
    (executeAll_corresponds 0 scope scope' .null .null program.body).bind fun _ _ =>
      .pure fun hgiven => hgiven.2.value
  have hcleared : Machine.Joined matching limit { machine with stack := [] }
      { other with stack := [] } := ⟨hjoined, .nil⟩
  obtain ⟨hresult, hadvance⟩ := hbody.agree ⟨hscope, .plain rfl⟩ hcleared hlimit
  exact ⟨hresult, hadvance.joined, hadvance.spares, hadvance.lines⟩

end TreeScript
