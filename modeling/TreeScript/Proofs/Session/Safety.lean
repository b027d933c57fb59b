import TreeScript.Proofs.Lowering.Restoration
import TreeScript.Proofs.Machine.Stack
import TreeScript.Session

/-!
# Sessions never fail internally

What lowering makes leaves the value stack as it found it, so programs that come from trees keep
the heap of a session sound: every closure in it, wherever a value refers to it from, can be run.
A session can only be brought into such states, and no run from one of them ends with a fault of
the interpreter itself. Faults of earlier runs, which may leave values on the stack, make no
difference.
-/

namespace TreeScript

variable {program : Program}

/-! ## Lowered operations and the value stack -/

namespace Operation

variable {operation : Operation}

/-- Reading a target leaves nothing. -/
theorem Leaves.read {target : Target} (h : ∀ part ∈ target.parts, Leaves 0 part) :
    Leaves 0 target.read := by
  cases target with
  | named name => exact .getVariable name
  | member object name => exact .getMember name (h object (by simp [Target.parts]))
  | index object position =>
    exact .getIndex (h object (by simp [Target.parts])) (h position (by simp [Target.parts]))

/-- Writing a target leaves what its value does. -/
theorem Leaves.write {target : Target} {count : Nat} {value : Operation}
    (h : ∀ part ∈ target.parts, Leaves 0 part) (hvalue : Leaves count value) (policy : Policy) :
    Leaves count (target.write value policy) := by
  cases target with
  | named name => exact .setVariable name policy false hvalue
  | member object name => exact .setMember name (h object (by simp [Target.parts])) hvalue
  | index object position =>
    exact .setIndex (h object (by simp [Target.parts])) (h position (by simp [Target.parts])) hvalue

/-- Expressions are lowered to operations that leave nothing aside. -/
theorem IsValue.leaves (h : operation.IsValue) : Leaves 0 operation := by
  induction h with
  | literal value => exact .literal value
  | getVariable name => exact .getVariable name
  | getMember member _ hobject => exact .getMember member hobject
  | getIndex _ _ hobject hindex => exact .getIndex hobject hindex
  | call _ _ hcallee harguments => exact .call hcallee harguments
  | createList _ helements => exact .createList helements
  | binary operator _ _ hleft hright => exact .binary operator hleft hright
  | unary operator _ hoperand => exact .unary operator hoperand
  | assign _ _ hparts hvalue => exact .write hparts hvalue .unconstrained
  | combine _ _ _ hparts hvalue =>
    exact .write hparts (.binary _ (.read hparts) hvalue) .mustExist
  | stepAfter _ _ hparts =>
    -- The value is set aside while the place is read and taken back once it is written.
    have hpush := Leaves.stackPush (Leaves.read hparts)
    exact .stackPop (.write hparts (.binary _ hpush (.literal _)) .mustExist)

/-- Statements are lowered to operations that can be run. -/
theorem IsStatement.runs (h : operation.IsStatement) : Runs operation := by
  induction h with
  | value hvalue => exact .value hvalue.leaves
  | declareVariable name hinitial => exact .value (.setVariable name _ _ hinitial.leaves)
  | declareFunction name _ _ hbody => exact .value (.setVariable name _ _ (.function name _ hbody))
  | giveBack hvalue => exact .giveBack hvalue.leaves
  | ifThen hcondition _ hconsequence => exact .ifThen hcondition.leaves hconsequence
  | ifThenElse hcondition _ _ hconsequence halternative =>
    exact .ifThenElse hcondition.leaves hconsequence halternative
  | block _ hbody => exact .block hbody

end Operation

/-! ## Runs -/

/-- A lowered program runs on a sound heap without an internal fault and leaves the heap sound. -/
theorem Program.run_isSound (hprogram : Operation.AreStatements program.body) (scope : ScopeId)
    {machine : Machine} (hheap : machine.heap.IsSound) :
    (program.run scope machine).2.heap.IsSound ∧
      FailsOnly Fault.IsOrdinary (program.run scope machine).1 := by
  have hbody : Evaluation.SetsAside 0 (executeAll 0 scope .null program.body) :=
    executeAll_setsAside 0 scope .null program.body fun operation h => (hprogram operation h).runs
  obtain ⟨result, heap, output, aside, hrun, hheap', hresult⟩ :=
    hbody machine.heap machine.output hheap
  have happly : program.run scope machine =
      (executeAll 0 scope .null program.body >>= fun completion => pure completion.value)
        ⟨machine.heap, [], machine.output⟩ := rfl
  rw [happly, bind_apply, hrun]
  cases result with
  | error fault => exact ⟨hheap', .error hresult⟩
  | ok completion => exact ⟨hheap', .ok _⟩

/-- A source text that compiles does so by way of a tree; one that does not never ran. -/
theorem Program.ofSource_cases (source : String) :
    (∃ tree program, Program.ofTree tree = .ok program ∧ Program.ofSource source = .ok program) ∨
      ∃ error, Program.ofSource source = .error error ∧ ∀ fault, error ≠ .failed fault := by
  unfold Program.ofSource
  cases Tree.parse source with
  | error cause => exact .inr ⟨.unparsable cause, rfl, fun _ h => nomatch h⟩
  | ok tree =>
    cases hprogram : Program.ofTree tree with
    | error cause =>
      refine .inr ⟨.rejected cause, ?_, fun _ h => nomatch h⟩
      change (Program.ofTree tree).mapError Error.rejected = _
      rw [hprogram]
      rfl
    | ok program =>
      refine .inl ⟨tree, program, hprogram, ?_⟩
      change (Program.ofTree tree).mapError Error.rejected = _
      rw [hprogram]
      rfl

namespace Session

variable {session : Session}

/-- The heap holds no closure that was not in another heap before. Lists, objects, scopes and
builtins may differ in any way. -/
def Supplies (before after : Heap) : Prop :=
  ∀ callable ∈ after.functions, callable ∈ before.functions ∨ ∃ which, callable = .builtin which

/-- What can be done with a session: run a program that comes from a tree, make values out of
what there is, bind a global variable to any value, and take the output. -/
inductive Next : Session → Session → Prop
  | run {session : Session} {tree : Tree} {program : Program} :
      Program.ofTree tree = .ok program → Next session (session.run program).2
  | supply {session : Session} {heap : Heap} :
      Supplies session.machine.heap heap →
      Next session { session with machine := { session.machine with heap } }
  | setGlobal (session : Session) (name : String) (value : Value) :
      Next session (session.setGlobal name value)
  | takeOutput (session : Session) : Next session session.takeOutput.2

/-- The sessions that any sequence of such steps leads to. -/
inductive Reachable : Session → Prop
  | new : Reachable .new
  | next {session session' : Session} : Reachable session → Next session session' →
      Reachable session'

/-- Making functions of builtins keeps the heap sound. -/
theorem isSound_install (heap : Heap) (scope : ScopeId) (h : heap.IsSound) :
    (Builtin.install heap scope).IsSound := by
  unfold Builtin.install
  generalize Builtin.all = builtins
  induction builtins generalizing heap with
  | nil => exact h
  | cons which rest ih =>
    have hsound : (Callable.builtin which).IsSound := trivial
    exact ih _ (h.newFunction hsound)

/-- The builtins are all the functions of a new session. -/
theorem isSound_new : new.machine.heap.IsSound := by
  let start : Heap := { Heap.empty with scopes := Scopes.empty.new.2 }
  have hnew : new.machine.heap =
      ((Builtin.install start Scopes.empty.new.1).newScope Scopes.empty.new.1).2 := rfl
  have hstart : start.IsSound :=
    fun callable hcallable => absurd hcallable (Array.not_mem_empty callable)
  have hinstalled := isSound_install start Scopes.empty.new.1 hstart
  rw [hnew]
  generalize Builtin.install start Scopes.empty.new.1 = heap at hinstalled ⊢
  exact hinstalled

/-- Each use of a session keeps it sound. -/
theorem isSound_next {session session' : Session} (h : Next session session')
    (hheap : session.machine.heap.IsSound) : session'.machine.heap.IsSound := by
  cases h with
  | run hprogram =>
    have hstatements := Program.areStatements_of_ofTree hprogram
    exact (Program.run_isSound hstatements session.globals hheap).1
  | supply hsupplies =>
    intro callable hcallable
    rcases hsupplies callable hcallable with hold | ⟨which, rfl⟩
    · exact hheap callable hold
    · trivial
  | setGlobal name value => exact hheap
  | takeOutput => exact hheap

/-- Every session is sound. -/
theorem isSound_of_reachable (h : Reachable session) : session.machine.heap.IsSound := by
  induction h with
  | new => exact isSound_new
  | next _ hnext ih => exact isSound_next hnext ih

/-- A run ends with a fault only if the program does on the session's machine. -/
theorem run_eq_failed {fault : Fault} (h : (session.run program).1 = .error (.failed fault)) :
    (program.run session.globals session.machine).1 = .error fault := by
  change (program.run session.globals session.machine).1.mapError Error.failed = _ at h
  cases hresult : (program.run session.globals session.machine).1 with
  | error fault' =>
    rw [hresult] at h
    cases h
    rfl
  | ok value =>
    rw [hresult] at h
    cases h

/-- Programs that come from trees do not fail internally in a session that can be reached. -/
theorem run_isOrdinary (h : Reachable session) {tree : Tree}
    (hprogram : Program.ofTree tree = .ok program) {fault : Fault}
    (hfault : (session.run program).1 = .error (.failed fault)) : fault.kind ≠ .internalError := by
  have hstatements := Program.areStatements_of_ofTree hprogram
  have hordinary := (Program.run_isSound hstatements session.globals (isSound_of_reachable h)).2
  have hkind : (fault.kind == .internalError) = false := hordinary fault (run_eq_failed hfault)
  exact ne_of_beq_false hkind

/-- No run of a program from a tree, and no evaluation of a source text, ends with an internal
fault, whatever was done with the session before. -/
theorem internalError_unreachable {session : Session} (h : Reachable session) :
    (∀ tree program, Program.ofTree tree = .ok program →
      ∀ fault, (session.run program).1 = .error (.failed fault) → fault.kind ≠ .internalError) ∧
    ∀ source fault,
      (session.evaluate source).1 = .error (.failed fault) → fault.kind ≠ .internalError := by
  refine ⟨fun tree program hprogram fault => run_isOrdinary h hprogram, ?_⟩
  intro source fault hfault
  rcases Program.ofSource_cases source with
    ⟨tree, program, hprogram, hsource⟩ | ⟨error, hsource, herror⟩
  · simp only [evaluate, hsource] at hfault
    exact run_isOrdinary h hprogram hfault
  · simp only [evaluate, hsource, Except.error.injEq] at hfault
    exact absurd hfault (herror fault)

/-- The tree of `x = null; x++;`. Running it ends in a fault between setting the null aside and
taking it back. -/
def nullStep : Tree :=
  let at0 : Span := Span.point 0
  let name : Tree :=
    .node .singleExpression [.node .identifier [.leaf .identifier "x" at0] at0] at0
  let null : Tree :=
    .node .singleExpression [.node .literal [.leaf .nullLiteral "null" at0] at0] at0
  let statement (parts : List Tree) : Tree :=
    .node .sourceElement [.node .statement [.node .expressionStatement
      [.node .expressionSequence [.node .singleExpression parts at0] at0, .node .eos [] at0]
      at0] at0] at0
  .node .program
    [.node .sourceElements
      [statement [name, .leaf .punctuator "=" at0, null],
        statement [name, .leaf .punctuator "++" at0]] at0,
      .leaf .endOfInput "" at0] at0

/-- After a run of that program, no later run fails internally. -/
theorem internalError_unreachable_after_nullStep :
    ∃ program, Program.ofTree nullStep = .ok program ∧ Reachable (new.run program).2 ∧
      ∀ source fault, ((new.run program).2.evaluate source).1 = .error (.failed fault) →
        fault.kind ≠ .internalError := by
  have hprogram : Program.ofTree nullStep =
      .ok ⟨[(Target.named "x").assign (.literal .null), (Target.named "x").stepAfter .add]⟩ := by
    change (Lowering.lowerProgram nullStep Lowering.initial).1 = _
    rw [nullStep, Lowering.lowerProgram_node rfl]
    simp only [Lowering.visit, Lowering.visitAll, Lowering.visitInner,
      Lowering.lowerExpressionStatement, Lowering.value, Lowering.lowerSequence,
      Lowering.lowerExpression, Lowering.primary, Lowering.lowerTriple, Lowering.lowerPair,
      Lowering.target, Lowering.targetShape]
    rfl
  have hreachable : Reachable (new.run _).2 := .next .new (.run hprogram)
  exact ⟨_, hprogram, hreachable, (internalError_unreachable hreachable).2⟩

end Session

end TreeScript
