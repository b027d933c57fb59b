import TreeScript.Proofs.Heap.Members
import TreeScript.Proofs.Lowering.Assignment
import TreeScript.Proofs.Session.Locals

/-!
# Updates of places

A combined assignment means the assignment that it abbreviates. The two differ in one check: the
combined one requires the variable to exist. It has been read by then, and names are never taken
away, whatever is evaluated between the read and the write.

A step is written in front of a place or behind it. Both forms find the place, read it, add or
subtract one and write it; `Target.advance` is that run, with all it finds out. The form behind
sets the old value aside right after the read. Nothing is evaluated from there to the end, so the
value that it takes back is the one it has set aside.
-/

namespace TreeScript

open Evaluation

variable {value : Value}

/-! ## Names stay bound -/

namespace Scopes

variable {inside scope : ScopeId} {before after : Scopes} {chain : List ScopeId} {name : String}

/-- Chains stay as they are while names are made. -/
theorem Extends.chain_after (h : Extends inside before after) (hchain : before.Chain scope chain) :
    after.Chain scope chain := by
  have hhas {scope : ScopeId} {outer : Option ScopeId} (houter : before.outer? scope = some outer) :
      before.Has scope := by
    rw [has_iff, houter]
    exact Option.some_ne_none _
  induction hchain with
  | outermost houter => exact .outermost ((h.outer (hhas houter)).trans houter)
  | inside houter _ ih => exact .inside ((h.outer (hhas houter)).trans houter) ih

/-- A name that is bound in a scope or around it stays so. -/
theorem Extends.holder?_ne_none (h : Extends inside before after)
    (hholder : before.holder? scope name ≠ none) : after.holder? scope name ≠ none := by
  by_cases hscope : before.Has scope
  · obtain ⟨chain, hchain⟩ := exists_chain hscope
    rw [hchain.holder?_eq, Ne, List.find?_eq_none, Classical.not_forall] at hholder
    rw [(h.chain_after hchain).holder?_eq, Ne, List.find?_eq_none, Classical.not_forall]
    obtain ⟨holder, hbinds⟩ := hholder
    refine ⟨holder, fun hnone => hbinds fun hmem hold => ?_⟩
    exact hnone hmem (h.keeps hold)
  · exact absurd (holder?_of_not_has hscope name) hholder

/-- A name with a value has a holder. -/
theorem holder?_ne_none_of_get? (h : before.get? scope name = some value) :
    before.holder? scope name ≠ none := by
  intro hnone
  rw [get?_eq_own?, hnone] at h
  cases h

/-- Requiring that a name is bound makes no difference if it is. -/
theorem bind_mustExist (h : before.holder? scope name ≠ none) (value : Value) :
    before.bind scope name value .mustExist false =
      before.bind scope name value .unconstrained false := by
  rw [bind_eq, bind_eq]
  simp only [refusal?, if_neg h]
  rfl

/-- A free binding succeeds. -/
theorem bind_unconstrained (scopes : Scopes) (scope : ScopeId) (name : String) (value : Value)
    (declaration : Bool) :
    ∃ after, scopes.bind scope name value .unconstrained declaration = .ok after :=
  ⟨_, scopes.bind_eq scope name value .unconstrained declaration⟩

end Scopes

/-- What is evaluated in a scope leaves the names that are bound from there bound. -/
theorem holder?_evaluate {machine : Machine} {scope : ScopeId} {name : String}
    (h : machine.heap.scopes.holder? scope name ≠ none) (depth : Nat) (operation : Operation) :
    (evaluate depth scope operation machine).2.heap.scopes.holder? scope name ≠ none :=
  (evaluate_traces depth scope operation machine).extends.holder?_ne_none h

/-! ## Combined assignments -/

/-- An operation fails as its left operand does. -/
theorem evaluate_binary_of_error {depth : Nat} {scope : ScopeId} {left : Operation}
    {machine after : Machine} {fault : Fault}
    (h : evaluate depth scope left machine = (.error fault, after)) (operator : BinaryOperator)
    (right : Operation) :
    evaluate depth scope (.binary operator left right) machine = (.error fault, after) := by
  by_cases hboth : operator = .both
  · subst hboth
    rw [evaluate, bind_apply, h]
  by_cases heither : operator = .either
  · subst heither
    rw [evaluate, bind_apply, h]
  rw [evaluate_binary hboth heither, bind_apply, h]

/-- An operation on a variable succeeds only if the variable is bound, and then it stays so. -/
theorem holder?_of_evaluate_binary {depth : Nat} {scope : ScopeId} {name : String}
    {operator : BinaryOperator} {operand : Operation} {machine after : Machine}
    (h : evaluate depth scope (.binary operator (.getVariable name) operand) machine =
      (.ok value, after)) :
    after.heap.scopes.holder? scope name ≠ none := by
  cases hget : machine.heap.scopes.get? scope name with
  | none =>
    have hread : evaluate depth scope (.getVariable name) machine =
        (.error (.undefinedName name), machine) := by
      rw [evaluate, lookUp, consult, hget]
    rw [evaluate_binary_of_error hread] at h
    cases h
  | some old =>
    have hafter := holder?_evaluate (Scopes.holder?_ne_none_of_get? hget) depth
      (.binary operator (.getVariable name) operand)
    rwa [h] at hafter

/-- A compound assignment is an assignment. -/
theorem evaluate_combine (target : Target) (operator : BinaryOperator) (operand : Operation)
    (depth : Nat) (scope : ScopeId) (machine : Machine) :
    evaluate depth scope (target.combine operator operand) machine =
      evaluate depth scope (target.assign (.binary operator target.read operand)) machine := by
  cases target with
  | named name =>
    change evaluate depth scope
        (.setVariable name (.binary operator (.getVariable name) operand) .mustExist false)
        machine =
      evaluate depth scope
        (.setVariable name (.binary operator (.getVariable name) operand) .unconstrained false)
        machine
    rw [evaluate, evaluate, bind_apply, bind_apply]
    rcases hvalue : evaluate depth scope (.binary operator (.getVariable name) operand) machine
      with ⟨_ | value, after⟩
    · rfl
    · have hbind := Scopes.bind_mustExist (holder?_of_evaluate_binary hvalue) value
      simp only [bind_apply, bindName, update, hbind]
  -- Only variables heed the policy.
  | member | index => rfl

/-- Combining a variable with a value and assigning the combination without requiring that the
variable exists give the same result and the same machine, whatever the operator and the operand
are and wherever they are evaluated. Once a name can be read, requiring it to be bound does not
fail, whatever has been evaluated since. The two operations are what the trees of the two forms are
lowered to. -/
theorem combine_means_assign :
    (∀ (name : String) (operator : BinaryOperator) (operand : Operation) (depth : Nat)
      (scope : ScopeId) (machine : Machine),
        evaluate depth scope
            (.setVariable name (.binary operator (.getVariable name) operand) .mustExist false)
            machine =
          evaluate depth scope
            (.setVariable name (.binary operator (.getVariable name) operand) .unconstrained false)
            machine) ∧
    (∀ (scope : ScopeId) (name : String) (machine : Machine) (old : Value),
      machine.heap.scopes.get? scope name = some old →
        ∀ (depth : Nat) (operation : Operation) (value : Value), ∃ scopes,
          (evaluate depth scope operation machine).2.heap.scopes.bind scope name value .mustExist
            false = .ok scopes) ∧
    ∀ operator ∈ BinaryOperator.compoundable,
      ∀ (left compound equals plain right : Tree) (span inner outer : Span) (name : String)
        (operand : Operation) (state after : LoweringState),
        compound.rule? = some .assignmentOperator → compound.text = operator.symbol ++ "=" →
        equals.isLeaf = true → equals.text = "=" →
        plain.isLeaf = true → plain.text = operator.symbol →
        state.modes.headD .value = .value →
        Lowering.target left state = (.ok (.named name), state) →
        Lowering.value right state = (.ok operand, after) →
        Lowering.value (.node .singleExpression [left, compound, right] span) state =
          (.ok (.setVariable name (.binary operator (.getVariable name) operand) .mustExist false),
            after) ∧
        Lowering.value
            (.node .singleExpression
              [left, equals, .node .singleExpression [left, plain, right] inner] outer)
            state =
          (.ok
            (.setVariable name (.binary operator (.getVariable name) operand) .unconstrained false),
            after) := by
  refine ⟨fun name => evaluate_combine (.named name), ?_, ?_⟩
  · intro scope name machine old hold depth operation value
    have hbound := holder?_evaluate (Scopes.holder?_ne_none_of_get? hold) depth operation
    rw [Scopes.bind_mustExist hbound]
    exact Scopes.bind_unconstrained _ scope name value false
  · intro operator hoperator left compound equals plain right span inner outer name operand state
      after hrule hcompound hequals hassign hplain hsymbol hmode hleft hright
    have hsign := BinaryOperator.ofCompound?_symbol operator hoperator
    have hread := (Lowering.value_of_target_named hmode hleft).2
    have hbinary : Lowering.value (.node .singleExpression [left, plain, right] inner) state =
        (.ok (.binary operator (.getVariable name) operand), after) :=
      Lowering.value_binary hmode hoperator hplain hsymbol (Lowering.isText_of_target hleft _) hread
        hright
    exact ⟨Lowering.value_combine hmode hrule (hcompound ▸ hsign) hleft hright,
      Lowering.value_assign hmode hequals hassign hleft hbinary⟩

/-- A machine with a variable `x` that is one, and a function that sets it to five and yields
two. -/
def meddling : Machine :=
  let (globals, scopes) := Scopes.empty.new
  let body := [.setVariable "x" (.literal (.int 5)) .unconstrained false,
    .giveBack (.literal (.int 2))]
  let (function, heap) := { Heap.empty with scopes }.newFunction (.closure "f" [] body globals)
  ⟨(heap.define globals "f" function).define globals "x" (.int 1), [], #[]⟩

open Surface in
/-- `x += f()` and `x = x + f()`, with the function assigning to the variable in between. -/
theorem combine_means_assign_meddling :
    let x := (Expression.name "x").tree
    let call := (Expression.call (.name "f") []).tree
    let operation := Operation.call (.getVariable "f") []
    let state : LoweringState := ⟨[⟨.program, []⟩], [.value]⟩
    let machine := (evaluate 0 ⟨0⟩ operation meddling).2
    Lowering.value (node .singleExpression
        [x, node .assignmentOperator [mark .addAssign], call]) state =
      (.ok (.setVariable "x" (.binary .add (.getVariable "x") operation) .mustExist false), state) ∧
    Lowering.value (node .singleExpression
        [x, mark .assign, node .singleExpression [x, mark .plus, call]]) state =
      (.ok (.setVariable "x" (.binary .add (.getVariable "x") operation) .unconstrained false),
        state) ∧
    evaluate 0 ⟨0⟩ (.setVariable "x" (.binary .add (.getVariable "x") operation) .mustExist false)
        meddling =
      evaluate 0 ⟨0⟩
        (.setVariable "x" (.binary .add (.getVariable "x") operation) .unconstrained false)
        meddling ∧
    machine.heap.scopes.get? ⟨0⟩ "x" = some (.int 5) ∧
    ∃ scopes, machine.heap.scopes.bind ⟨0⟩ "x" (.int 3) .mustExist false = .ok scopes := by
  intro x call operation state machine
  obtain ⟨hsame, hbound, hlowered⟩ := combine_means_assign
  have hplace : Lowering.target x state = (.ok (.named "x"), state) :=
    (Expression.name "x").computes_place state (List.cons_ne_nil _ _) rfl
  have hcall : Lowering.value call state = (.ok operation, state) :=
    (Expression.call (.name "f") []).computes_value state (List.cons_ne_nil _ _) rfl
  obtain ⟨hcombine, hassign⟩ := hlowered .add (by decide) x
    (node .assignmentOperator [mark .addAssign]) (mark .assign) (mark .plus) call (Span.point 0)
    (Span.point 0) (Span.point 0) "x" operation state state rfl (by decide) rfl rfl rfl rfl rfl
    hplace hcall
  have hassigned : (evaluate 0 ⟨0⟩ (.call (.getVariable "f") []) meddling).2.heap.scopes.get? ⟨0⟩
      "x" = some (.int 5) := by
    have hfunction : meddling.heap.scopes.get? ⟨0⟩ "f" = some (.function ⟨0⟩) := by
      with_unfolding_all rfl
    rw [evaluate_call_closure hfunction rfl (by decide)]
    simp only [executeAll, execute, evaluate]
    with_unfolding_all rfl
  exact ⟨hcombine, hassign, hsame "x" .add operation 0 ⟨0⟩ meddling, hassigned,
    hbound ⟨0⟩ "x" meddling (.int 1) (by with_unfolding_all rfl) 0 operation (.int 3)⟩

/-! ## Places once they are found -/

/-- A place whose parts have their values. -/
inductive Spot where
  | named (scope : ScopeId) (name : String)
  | member (object : Value) (name : String)
  | element (container position : Value)

namespace Spot

/-- Read what is there. -/
def load : Spot → Heap → Except Fault Value
  | named scope name, heap =>
    match heap.scopes.get? scope name with
    | some value => .ok value
    | none => .error (.undefinedName name)
  | member object name, heap => heap.getMember object name
  | element container position, heap => heap.getIndex container position

/-- Write a value there. Only a variable heeds the policy. -/
def store (policy : Policy) (value : Value) : Spot → Heap → Except Fault Heap
  | named scope name, heap => do
    let scopes ← heap.scopes.bind scope name value policy false
    return { heap with scopes }
  | member object name, heap => heap.setMember object name value
  | element container position, heap => heap.setIndex container position value

/-- The place in the heap of what the spot is a part of, if it is not a variable. -/
def place? : Spot → Option Place
  | named _ _ => none
  | member object _ => object.place?
  | element container _ => container.place?

end Spot

namespace Target

variable (target : Target) (depth : Nat) (scope : ScopeId)

/-- Find the place. -/
def locate : Target → Evaluation Spot
  | named name => return .named scope name
  | member object name => do return .member (← evaluate depth scope object) name
  | index object position => do
    let container ← evaluate depth scope object
    let position ← evaluate depth scope position
    return .element container position

/-- A target is read where it is located. -/
theorem evaluate_read :
    evaluate depth scope target.read = (do
      let spot ← target.locate depth scope
      consult spot.load) := by
  cases target with
  | named name =>
    rw [read, evaluate]
    rfl
  | member | index =>
    simp only [read, evaluate, locate, bind_assoc, pure_bind]
    rfl

/-- A target is written where it is located. -/
theorem evaluate_write (value : Operation) (policy : Policy) :
    evaluate depth scope (target.write value policy) = (do
      let spot ← target.locate depth scope
      let value ← evaluate depth scope value
      update (spot.store policy value)
      return value) := by
  cases target with
  | named name =>
    rw [write, evaluate]
    rfl
  | member | index =>
    simp only [write, evaluate, locate, bind_assoc, pure_bind]
    rfl

/-- Find the place, read it, which finds it once more, and write the value moved by one to where it
was found first. The result is the spot that was written, its old value and its new one. -/
def advance (operator : BinaryOperator) : Evaluation (Spot × Value × Value) := do
  let spot ← target.locate depth scope
  let old ← evaluate depth scope target.read
  let new ← consult (·.applyBinary operator old (.int 1))
  update (spot.store .mustExist new)
  return (spot, old, new)

end Target

/-! ## Steps -/

/-- An update changes the heap only. -/
theorem update_eq_ok {change : Heap → Except Fault Heap} {machine after : Machine} {done : Unit}
    (h : update change machine = (.ok done, after)) :
    ∃ heap, change machine.heap = .ok heap ∧ { machine with heap } = after := by
  unfold update at h
  split at h
  · rename_i heap hheap
    cases h
    exact ⟨heap, hheap, rfl⟩
  · cases h

namespace Target

variable (target : Target) (depth : Nat) (scope : ScopeId) {operator : BinaryOperator}
variable {sign : String}

/-- In both forms of a step the value is read before it is moved by one. -/
theorem evaluate_moved (hsign : stepOperator? sign = some operator) (read : Operation) :
    evaluate depth scope (.binary operator read one) = (do
      let old ← evaluate depth scope read
      consult (·.applyBinary operator old (.int 1))) := by
  have hone : evaluate depth scope one = pure (.int 1) := by
    rw [one, evaluate]
    rfl
  unfold stepOperator? at hsign
  split at hsign <;> cases hsign
  all_goals simp only [evaluate_binary, ne_eq, reduceCtorEq, not_false_eq_true, hone, pure_bind]

/-- A step before gives the new value. -/
theorem evaluate_stepBefore (hsign : stepOperator? sign = some operator) :
    evaluate depth scope (target.stepBefore operator) =
      (fun result => result.2.2) <$> target.advance depth scope operator := by
  rw [stepBefore, combine, evaluate_write]
  simp only [evaluate_moved depth scope hsign, advance, map_bind, map_pure, bind_assoc]

/-- A step after sets the old value aside. -/
theorem evaluate_stepAfter (hsign : stepOperator? sign = some operator) :
    evaluate depth scope (target.stepAfter operator) = (do
      let spot ← target.locate depth scope
      let old ← evaluate depth scope target.read
      setAside old
      let new ← consult (·.applyBinary operator old (.int 1))
      update (spot.store .mustExist new)
      takeBack) := by
  rw [stepAfter, evaluate, evaluate_write]
  simp only [evaluate_moved depth scope hsign, evaluate, bind_assoc, pure_bind]

/-- The form behind takes back the value that it has set aside. If it fails after that, the value is
still there. -/
theorem stepAfter_apply (hsign : stepOperator? sign = some operator) (machine : Machine) :
    match target.advance depth scope operator machine with
    | (.ok (_, old, _), after) =>
      evaluate depth scope (target.stepAfter operator) machine = (.ok old, after)
    | (.error fault, failed) =>
      ∃ aside, evaluate depth scope (target.stepAfter operator) machine =
        (.error fault, { failed with stack := aside ++ failed.stack }) := by
  rw [evaluate_stepAfter target depth scope hsign, advance, bind_apply, bind_apply]
  rcases target.locate depth scope machine with ⟨fault | spot, located⟩
  · exact ⟨[], rfl⟩
  dsimp only
  rw [bind_apply, bind_apply]
  rcases evaluate depth scope target.read located with ⟨fault | old, ⟨heap, stack, output⟩⟩
  · exact ⟨[], rfl⟩
  -- From here on nothing is evaluated, and the heap alone decides.
  have haside : setAside old ⟨heap, stack, output⟩ = (.ok (), ⟨heap, old :: stack, output⟩) := rfl
  simp only [bind_apply, haside, consult]
  cases heap.applyBinary operator old (.int 1) with
  | error fault => exact ⟨[old], rfl⟩
  | ok new =>
    simp only [update]
    cases spot.store .mustExist new heap with
    | error fault => exact ⟨[old], rfl⟩
    | ok written => rfl

/-- A step before, from one machine. -/
theorem stepBefore_apply (hsign : stepOperator? sign = some operator) (machine : Machine) :
    evaluate depth scope (target.stepBefore operator) machine =
      match target.advance depth scope operator machine with
      | (.ok (_, _, new), after) => (.ok new, after)
      | (.error fault, failed) => (.error fault, failed) := by
  rw [evaluate_stepBefore target depth scope hsign, map_eq_pure_bind, bind_apply]
  rcases target.advance depth scope operator machine with ⟨_ | _, _⟩ <;> rfl

end Target

/-! ## What is written can be read -/

/-- A value that was written to a spot is read there, if what the spot is a part of exists. -/
theorem Spot.load_of_store {spot : Spot} {heap written : Heap}
    (h : spot.store .mustExist value heap = .ok written)
    (hplace : ∀ place, spot.place? = some place → written.Has place) :
    spot.load written = .ok value := by
  cases spot with
  | named scope name =>
    obtain ⟨scopes, hscopes, hwritten⟩ := bind_eq_ok.mp h
    cases hwritten
    have hscope : heap.scopes.Has scope := by
      by_cases hhas : heap.scopes.Has scope
      · exact hhas
      · have hholder := Scopes.holder?_of_not_has hhas name
        rw [Scopes.bind_eq, Scopes.refusal?, if_pos hholder] at hscopes
        cases hscopes
    have hget := (Scopes.writesOnly_of_bind hscope hscopes).get?_slot hscope
      (heap.scopes.slot_cases scope name .mustExist false)
    simp only [load, hget]
  | member object name =>
    change heap.setMember object name value = .ok written at h
    obtain ⟨object, rfl, rfl⟩ := Heap.setMember_eq_ok_iff.mp h
    have hobject := (heap.writes_setProperty object name value).has_iff.mp (hplace _ rfl)
    exact (Heap.readsBack_setProperty hobject name).written
  | element container position =>
    change heap.setIndex container position value = .ok written at h
    refine (Heap.readsBack_of_setIndex h ?_).written
    rintro object rfl
    exact (Heap.has_of_setIndex h).mp (hplace _ rfl)

/-- A step that succeeds has written the new value to the spot. -/
theorem Target.store_of_advance {target : Target} {depth : Nat} {scope : ScopeId}
    {operator : BinaryOperator} {machine after : Machine} {spot : Spot} {old new : Value}
    (h : target.advance depth scope operator machine = (.ok (spot, old, new), after)) :
    ∃ heap, spot.store .mustExist new heap = .ok after.heap := by
  obtain ⟨found, located, -, h⟩ := bind_apply_eq_ok.mp h
  obtain ⟨value, reread, -, h⟩ := bind_apply_eq_ok.mp h
  obtain ⟨moved, between, -, h⟩ := bind_apply_eq_ok.mp h
  obtain ⟨_, written, hstore, h⟩ := bind_apply_eq_ok.mp h
  cases h
  obtain ⟨heap, hheap, rfl⟩ := update_eq_ok hstore
  exact ⟨between.heap, hheap⟩

/-- The two forms of a step are lowered from the same target. Wherever they are evaluated, both run
through the same finding, reading, moving and writing. If that succeeds, the form in front yields
the value that was written, the form behind yields the one that was read, both end with the same
machine, and what was written can be read where the place was found, as long as it is a part of
something that exists. If it fails, both fail with the same fault, the same heap and the same
output, and the form behind may leave values on the stack. -/
theorem steps_agree {sign operand : Tree} {operator : BinaryOperator} {target : Target}
    {state after : LoweringState} (hleaf : sign.isLeaf = true)
    (hsign : stepOperator? sign.text = some operator) (hmode : state.modes.headD .value = .value)
    (htarget : Lowering.target operand state = (.ok target, after)) :
    ∃ before behind : Operation,
      (∀ span, Lowering.value (.node .singleExpression [sign, operand] span) state =
        (.ok before, after)) ∧
      (∀ span, Lowering.value (.node .singleExpression [operand, sign] span) state =
        (.ok behind, after)) ∧
      ∀ (depth : Nat) (scope : ScopeId) (machine : Machine),
        match target.advance depth scope operator machine with
        | (.ok (spot, old, new), final) =>
          evaluate depth scope before machine = (.ok new, final) ∧
          evaluate depth scope behind machine = (.ok old, final) ∧
          ((∀ place, spot.place? = some place → final.heap.Has place) →
            spot.load final.heap = .ok new)
        | (.error fault, failed) =>
          evaluate depth scope before machine = (.error fault, failed) ∧
          ∃ aside, evaluate depth scope behind machine =
            (.error fault, { failed with stack := aside ++ failed.stack }) := by
  refine ⟨target.stepBefore operator, target.stepAfter operator,
    fun _ => Lowering.value_stepBefore hmode hleaf hsign htarget,
    fun _ => Lowering.value_stepAfter hmode hleaf hsign htarget, ?_⟩
  intro depth scope machine
  have hbefore := target.stepBefore_apply depth scope hsign machine
  have hbehind := target.stepAfter_apply depth scope hsign machine
  rcases hrun : target.advance depth scope operator machine with ⟨fault | ⟨spot, old, new⟩, final⟩
  · rw [hrun] at hbefore hbehind
    exact ⟨hbefore, hbehind⟩
  · rw [hrun] at hbefore hbehind
    obtain ⟨heap, hstore⟩ := Target.store_of_advance hrun
    exact ⟨hbefore, hbehind, Spot.load_of_store hstore⟩

/-- A machine with a list of three numbers and an index. -/
def indexed (index : Int64) : Machine :=
  let (globals, scopes) := Scopes.empty.new
  let (list, heap) := { Heap.empty with scopes }.newList [.int 5, .int 7, .int 9]
  ⟨(heap.define globals "a" list).define globals "i" (.int index), [], #[]⟩

/-- `a[i++]` as a target. -/
def movingElement : Target := .index (.getVariable "a") ((Target.named "i").stepAfter .add)

/-- The machine after the element has been stepped: the index has moved twice. -/
def indexedAfter : Machine :=
  { indexed 2 with heap := (indexed 2).heap.setItem ⟨0⟩ 0 (.int 8) }

/-- The first element is written, but with the second one plus one. -/
theorem advance_movingElement :
    movingElement.advance 0 ⟨0⟩ .add (indexed 0) =
      (.ok (.element (.list ⟨0⟩) (.int 0), .int 7, .int 8), indexedAfter) := by
  have hsign : stepOperator? "++" = some .add := rfl
  simp only [movingElement, Target.advance, Target.evaluate_read,
    Target.evaluate_stepAfter _ _ _ hsign, Target.locate, evaluate]
  with_unfolding_all rfl

open Surface in
/-- `++a[i++]` and `a[i++]++`, with a step inside the step. -/
theorem steps_agree_movingElement :
    let operand := (Expression.index (.name "a") (.mk (.stepAfter (.name "i") .up) [])).tree
    let state : LoweringState := ⟨[⟨.program, []⟩], [.value]⟩
    Lowering.target operand state = (.ok movingElement, state) ∧
    ∃ before behind : Operation,
      Lowering.value (node .singleExpression [mark .increment, operand]) state =
        (.ok before, state) ∧
      Lowering.value (node .singleExpression [operand, mark .increment]) state =
        (.ok behind, state) ∧
      evaluate 0 ⟨0⟩ before (indexed 0) = (.ok (.int 8), indexedAfter) ∧
      evaluate 0 ⟨0⟩ behind (indexed 0) = (.ok (.int 7), indexedAfter) ∧
      (Spot.element (.list ⟨0⟩) (.int 0)).load indexedAfter.heap = .ok (.int 8) := by
  intro operand state
  have htarget : Lowering.target operand state = (.ok movingElement, state) :=
    (Expression.index (.name "a") (.mk (.stepAfter (.name "i") .up) [])).computes_place state
      (List.cons_ne_nil _ _) rfl
  have hsign : stepOperator? (mark .increment).text = some .add := rfl
  obtain ⟨before, behind, hbefore, hbehind, hrun⟩ := steps_agree rfl hsign rfl htarget
  have hsteps := hrun 0 ⟨0⟩ (indexed 0)
  rw [advance_movingElement] at hsteps
  obtain ⟨hnew, hold, hload⟩ := hsteps
  refine ⟨htarget, before, behind, hbefore _, hbehind _, hnew, hold, hload ?_⟩
  rintro place ⟨⟩
  exact Nat.zero_lt_one

end TreeScript
