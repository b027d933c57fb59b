import TreeScript.Proofs.Machine.Trace
import TreeScript.Proofs.Scope.Binding
import TreeScript.Session

/-!
# Names stay where they are made

A run makes names in the scope it is in, and a call is in a scope of its own. So whatever a call
does, the scopes that were there before it bind the same names after it, and a program adds names
to no other of them than the one it is run in. The scope of the builtins lies around that one and
keeps exactly their names.
-/

namespace TreeScript

namespace Scopes

/-- What a run inside a scope can make of a store: scopes stay where they are and keep their names,
and of those that were there, only the one the run is in may have got new ones. -/
structure Extends (inside : ScopeId) (before after : Scopes) : Prop where
  outer : ∀ {scope}, before.Has scope → after.outer? scope = before.outer? scope
  keeps : ∀ {scope name}, before.binds name scope = true → after.binds name scope = true
  elsewhere : ∀ {scope}, before.Has scope → scope ≠ inside →
    ∀ name, after.binds name scope = before.binds name scope

variable {inside outer scope : ScopeId} {before between after scopes : Scopes}

namespace Extends

/-- Scopes extend themselves. -/
theorem refl (inside : ScopeId) (scopes : Scopes) : Extends inside scopes scopes :=
  ⟨fun _ => rfl, fun h => h, fun _ _ _ => rfl⟩

/-- Scopes that are there stay there. -/
theorem has (h : Extends inside before after) (hscope : before.Has scope) : after.Has scope := by
  rw [has_iff, h.outer hscope]
  exact has_iff.mp hscope

/-- Extensions follow one another. -/
theorem trans (h : Extends inside before between) (hnext : Extends inside between after) :
    Extends inside before after where
  outer hscope := (hnext.outer (h.has hscope)).trans (h.outer hscope)
  keeps hbinds := hnext.keeps (h.keeps hbinds)
  elsewhere hscope hne name :=
    (hnext.elsewhere (h.has hscope) hne name).trans (h.elsewhere hscope hne name)

end Extends

/-- A definition binds one name in one scope. -/
theorem binds_define (scopes : Scopes) (slot : ScopeId) (name : String) (value : Value)
    (scope : ScopeId) (other : String) :
    (scopes.define slot name value).binds other scope =
      (decide (scope = slot ∧ other = name ∧ scopes.Has slot) || scopes.binds other scope) := by
  unfold binds
  rw [own?_define]
  by_cases hwritten : scope = slot ∧ other = name ∧ scopes.Has slot <;> simp [hwritten]

/-- Setting a variable in a scope makes a name there or writes one that is bound already. -/
theorem extends_bind {name : String} {value : Value} {policy : Policy} {declaration : Bool}
    (h : before.bind inside name value policy declaration = .ok after) :
    Extends inside before after := by
  rw [bind_eq] at h
  split at h
  · cases h
  cases h
  have hslot := before.slot_cases inside name policy declaration
  generalize before.slot inside name policy declaration = slot at hslot
  refine ⟨fun _ => before.outer?_define slot name value _, fun hold => ?_,
    fun {scope} _ hne other => ?_⟩
  · rw [binds_define, hold, Bool.or_true]
  · rw [binds_define]
    by_cases hwritten : scope = slot ∧ other = name ∧ before.Has slot
    · obtain ⟨rfl, rfl, -⟩ := hwritten
      -- The slot is not in the scope itself, so the name was bound there before.
      rcases hslot with rfl | hholder
      · exact absurd rfl hne
      · rw [binds_of_holder? hholder, Bool.or_true]
    · rw [decide_eq_false hwritten, Bool.false_or]

/-- A new scope binds nothing, and all others are as they were. -/
theorem own?_push (scopes : Scopes) (outer : Option ScopeId)
    (h : ∀ scope, outer = some scope → scope.index < scopes.frames.size) (scope : ScopeId)
    (name : String) : (scopes.push outer h).own? scope name = scopes.own? scope name := by
  unfold own? frame? push
  rw [Array.getElem?_push]
  split
  · rename_i hnew
    simp [hnew, Dictionary.get?, Dictionary.empty]
  · rfl

/-- A new scope keeps where others lie. -/
theorem outer?_push (scopes : Scopes) (outer : Option ScopeId)
    (h : ∀ scope, outer = some scope → scope.index < scopes.frames.size)
    (hscope : scopes.Has scope) : (scopes.push outer h).outer? scope = scopes.outer? scope := by
  unfold outer? frame? push
  rw [Array.getElem?_push, if_neg (Nat.ne_of_lt hscope)]

/-- A new scope is an extension. -/
theorem extends_push (inside : ScopeId) {outer : Option ScopeId}
    (h : ∀ scope, outer = some scope → scope.index < scopes.frames.size) :
    Extends inside scopes (scopes.push outer h) where
  outer hscope := scopes.outer?_push outer h hscope
  keeps hbinds := by rwa [binds, own?_push]
  elsewhere _ _ name := by rw [binds, own?_push, binds]

/-- Making a scope leaves the others as they are, and it is not one of them. -/
theorem extends_child (inside outer : ScopeId) (scopes : Scopes) :
    Extends inside scopes (scopes.child outer).2 ∧ ¬ scopes.Has (scopes.child outer).1 := by
  unfold child
  split
  · rename_i hlt
    have hsome : ∀ scope, some outer = some scope → scope.index < scopes.frames.size := by
      rintro _ ⟨⟩
      exact hlt
    exact ⟨extends_push inside hsome, Nat.lt_irrefl _⟩
  · have hnone : ∀ scope : ScopeId, none = some scope → scope.index < scopes.frames.size := by
      rintro _ ⟨⟩
    exact ⟨extends_push inside hnone, Nat.lt_irrefl _⟩

/-- A child lies inside its parent. -/
theorem outer?_child (h : scopes.Has outer) :
    (scopes.child outer).2.outer? (scopes.child outer).1 = some (some outer) := by
  have hlt : outer.index < scopes.frames.size := h
  unfold child
  rw [dif_pos hlt]
  simp [outer?, frame?, push]

/-- What a run makes of a store in a scope that is new there leaves all others their names. -/
theorem Extends.of_child (h : Extends (scopes.child outer).1 (scopes.child outer).2 after)
    (inside : ScopeId) : Extends inside scopes after := by
  obtain ⟨hchild, hnew⟩ := extends_child inside outer scopes
  refine ⟨fun hscope => ?_, fun hbinds => h.keeps (hchild.keeps hbinds), fun hscope hne name => ?_⟩
  · exact (h.outer (hchild.has hscope)).trans (hchild.outer hscope)
  · have hother : _ ≠ (scopes.child outer).1 := fun heq => hnew (heq ▸ hscope)
    exact (h.elsewhere (hchild.has hscope) hother name).trans (hchild.elsewhere hscope hne name)

end Scopes

open Scopes

namespace Machine

variable {inside : ScopeId} {first second last : Machine}

/-- Every change is an extension. -/
theorem Change.extends (h : Change inside first second) :
    Extends inside first.heap.scopes second.heap.scopes := by
  cases h with
  | bind hbind => exact extends_bind hbind
  | setProperty | setItem | newList | newObject | newFunction | setStack | writeLine =>
    exact .refl inside _

/-- So is every run. -/
theorem Trace.extends (h : Trace inside first last) :
    Extends inside first.heap.scopes last.heap.scopes := by
  induction h with
  | stay scope machine => exact .refl scope _
  | change hchange _ ih => exact hchange.extends.trans ih
  | call _ _ ihinner ih => exact (ihinner.of_child _).trans ih

end Machine

/-- A call leaves every scope that was there the names it had. -/
theorem binds_call (depth : Nat) (callee : Value) (arguments : List Value) (machine : Machine)
    {scope : ScopeId} (h : machine.heap.scopes.Has scope) (name : String) :
    (call depth callee arguments machine).2.heap.scopes.binds name scope =
      machine.heap.scopes.binds name scope := by
  -- A call does the same from every scope, so take one that is not the scope in question.
  have hne : scope ≠ ⟨scope.index + 1⟩ := fun heq =>
    absurd (congrArg ScopeId.index heq) (Nat.ne_of_lt (Nat.lt_succ_self _))
  exact (call_traces depth ⟨scope.index + 1⟩ callee arguments machine).extends.elsewhere h hne name

namespace Session

/-- The sessions that come about by using a new one: running any programs in it, calling any
values, binding global variables and printing. -/
inductive InUse : Session → Prop
  | new : InUse .new
  | run {session : Session} (program : Program) : InUse session → InUse (session.run program).2
  | call {session : Session} (callee : Value) (arguments : List Value) :
      InUse session → InUse (session.call callee arguments).2
  | setGlobal {session : Session} (name : String) (value : Value) :
      InUse session → InUse (session.setGlobal name value)
  | writeLine {session : Session} (line : String) :
      InUse session → InUse (session.writeLine line)
  | takeOutput {session : Session} : InUse session → InUse session.takeOutput.2

/-- The scope around that of the global variables binds the names of the builtins and no others. -/
def KeepsBuiltins (session : Session) : Prop :=
  ∃ builtins, session.machine.heap.scopes.outer? session.globals = some (some builtins) ∧
    session.machine.heap.scopes.Has builtins ∧
    ∀ name, session.machine.heap.scopes.binds name builtins = true ↔
      ∃ which : Builtin, name = which.name

/-- Making functions of builtins binds their names and nothing else. -/
theorem binds_install (heap : Heap) {scope : ScopeId} (h : heap.scopes.Has scope) :
    (Builtin.install heap scope).scopes.Has scope ∧
      ∀ name, (Builtin.install heap scope).scopes.binds name scope = true ↔
        heap.scopes.binds name scope = true ∨ ∃ which ∈ Builtin.all, name = which.name := by
  unfold Builtin.install
  generalize Builtin.all = builtins
  induction builtins generalizing heap with
  | nil => simpa using h
  | cons which rest ih =>
    let function := heap.newFunction (.builtin which)
    have hbind : heap.scopes.bind scope which.name function.1 .unconstrained true =
        .ok (heap.scopes.define scope which.name function.1) := rfl
    obtain ⟨hhas, hnames⟩ :=
      ih (function.2.define scope which.name function.1) ((extends_bind hbind).has h)
    refine ⟨hhas, fun name => ?_⟩
    rw [List.foldl_cons, hnames name]
    change (heap.scopes.define scope which.name function.1).binds name scope = true ∨ _ ↔ _
    rw [binds_define]
    simp [h, or_assoc, or_left_comm]

/-- What is done in the scope of the global variables leaves the builtins alone. -/
theorem KeepsBuiltins.of_extends {session : Session} (h : session.KeepsBuiltins) {machine : Machine}
    (hextends : Extends session.globals session.machine.heap.scopes machine.heap.scopes) :
    KeepsBuiltins { session with machine } := by
  obtain ⟨builtins, houter, hhas, hnames⟩ := h
  have hglobals : session.machine.heap.scopes.Has session.globals := by
    rw [has_iff, houter]
    exact Option.some_ne_none _
  have hne : builtins ≠ session.globals := fun heq =>
    absurd (congrArg ScopeId.index heq) (Nat.ne_of_lt (index_lt_of_outer? houter))
  refine ⟨builtins, (hextends.outer hglobals).trans houter, hextends.has hhas, fun name => ?_⟩
  rw [hextends.elsewhere hhas hne name]
  exact hnames name

/-- A new session has its built-ins. -/
theorem keepsBuiltins_new : new.KeepsBuiltins := by
  let start : Heap := { Heap.empty with scopes := Scopes.empty.new.2 }
  have hstart : start.scopes.Has ⟨0⟩ := by decide
  obtain ⟨hhas, hnames⟩ := binds_install start hstart
  have hnew : new = ⟨⟨((Builtin.install start ⟨0⟩).newScope ⟨0⟩).2, [], #[]⟩,
      ((Builtin.install start ⟨0⟩).newScope ⟨0⟩).1⟩ := rfl
  rw [hnew]
  generalize Builtin.install start ⟨0⟩ = heap at hhas hnames
  have hchild := (extends_child ⟨1⟩ ⟨0⟩ heap.scopes).1
  refine ⟨⟨0⟩, outer?_child hhas, hchild.has hhas, fun name => ?_⟩
  have hall : ∀ which, which ∈ Builtin.all := by
    intro which
    cases which <;> decide
  have hnone : start.scopes.binds name ⟨0⟩ = false := rfl
  change (heap.scopes.child ⟨0⟩).2.binds name ⟨0⟩ = true ↔ _
  rw [hchild.elsewhere hhas (by decide), hnames name, hnone]
  simp [hall]

/-- A session in use keeps them. -/
theorem keepsBuiltins_of_inUse {session : Session} (h : InUse session) : session.KeepsBuiltins := by
  induction h with
  | new => exact keepsBuiltins_new
  | @run session program _ ih =>
    exact ih.of_extends (program.run_traces session.globals session.machine).extends
  | @call session callee arguments _ ih =>
    exact ih.of_extends (call_traces 0 session.globals callee arguments session.machine).extends
  | @setGlobal session name value _ ih =>
    exact ih.of_extends (extends_bind (bind_declared _ session.globals name value))
  | writeLine _ _ ih => exact ih
  | takeOutput _ ih => exact ih

end Session

/-- Whatever value is called, with whatever arguments, on whatever machine and inside whatever
calls, and whether the call succeeds or fails, every scope that was there binds the same names as
before. A program that is run in a scope leaves all other scopes that were there their names, and
takes none from its own. So the scope of the builtins binds exactly their names in every session
that comes about from a new one. -/
theorem locals_never_leak :
    (∀ (depth : Nat) (callee : Value) (arguments : List Value) (machine : Machine)
      (scope : ScopeId), machine.heap.scopes.Has scope →
        ∀ name, (call depth callee arguments machine).2.heap.scopes.binds name scope =
          machine.heap.scopes.binds name scope) ∧
    (∀ (program : Program) (inside : ScopeId) (machine : Machine) (scope : ScopeId),
      machine.heap.scopes.Has scope →
        (scope ≠ inside → ∀ name, (program.run inside machine).2.heap.scopes.binds name scope =
          machine.heap.scopes.binds name scope) ∧
        ∀ name, machine.heap.scopes.binds name scope = true →
          (program.run inside machine).2.heap.scopes.binds name scope = true) ∧
    ∀ session : Session, session.InUse → session.KeepsBuiltins := by
  refine ⟨?_, ?_, fun session => Session.keepsBuiltins_of_inUse⟩
  · intro depth callee arguments machine scope hscope
    exact binds_call depth callee arguments machine hscope
  · intro program inside machine scope hscope
    have hextends := (program.run_traces inside machine).extends
    exact ⟨hextends.elsewhere hscope, fun name => hextends.keeps⟩

/-- A machine on which `function f(a) { b = a; var c = d; }` has been run. Calling the function
fails after it has made two names. -/
def failingFunction : Machine :=
  let (globals, scopes) := Scopes.empty.new
  let body := [.setVariable "b" (.getVariable "a") .unconstrained false,
    .setVariable "c" (.getVariable "d") .cannotExist true]
  let (function, heap) := { Heap.empty with scopes }.newFunction (.closure "f" ["a"] body globals)
  ⟨heap.define globals "f" function, [], #[]⟩

/-- The names stay in the call, and a program that declares the name of a builtin anew makes it in
the scope of the global variables. -/
theorem locals_never_leak_of_failingFunction :
    failingFunction.heap.scopes.Has ⟨0⟩ ∧
    (call 0 (.function ⟨0⟩) [.null] failingFunction).2.heap.scopes.binds "f" ⟨0⟩ = true ∧
    (call 0 (.function ⟨0⟩) [.null] failingFunction).2.heap.scopes.binds "a" ⟨0⟩ = false ∧
    (call 0 (.function ⟨0⟩) [.null] failingFunction).2.heap.scopes.binds "b" ⟨0⟩ = false ∧
    (Program.run ⟨[.setVariable "x" (.literal .null) .cannotExist true]⟩ ⟨1⟩
      Session.new.machine).2.heap.scopes.binds "x" ⟨0⟩ = false ∧
    (Session.new.run
      ⟨[.setVariable "len" (.literal .null) .cannotExist true]⟩).2.KeepsBuiltins := by
  obtain ⟨hcall, hrun, hsession⟩ := locals_never_leak
  have hhas : failingFunction.heap.scopes.Has ⟨0⟩ := by decide
  have hnames := hcall 0 (.function ⟨0⟩) [.null] failingFunction ⟨0⟩ hhas
  have hbuiltins : Session.new.machine.heap.scopes.Has ⟨0⟩ := by decide
  refine ⟨hhas, ?_, ?_, ?_, ?_, hsession _ (.run _ .new)⟩
  · rw [hnames]
    decide
  · rw [hnames]
    decide
  · rw [hnames]
    decide
  · rw [(hrun _ ⟨1⟩ Session.new.machine ⟨0⟩ hbuiltins).1 (by decide)]
    decide

end TreeScript
