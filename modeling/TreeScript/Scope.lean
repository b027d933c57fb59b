import TreeScript.Dictionary
import TreeScript.Fault

/-!
# Scopes

Variables live in scopes. A scope other than an outermost one lies inside a scope that was made
before it, so going outwards always ends. A name means its binding in the nearest scope that has
one. Reading a variable, writing it and finding out where it is bound each go outwards on their
own.
-/

namespace TreeScript

/-- The identity of a scope. -/
structure ScopeId where
  index : Nat
deriving DecidableEq, Repr

/-- The variables bound in one scope, and the scope around it. -/
structure Frame where
  bindings : Dictionary Value
  outer : Option ScopeId

/-- All scopes, in the order in which they were made. -/
structure Scopes where
  frames : Array Frame
  /-- A scope lies inside an earlier one. -/
  outer_lt : ∀ (i : Nat) (frame : Frame), frames[i]? = some frame →
    ∀ outer, frame.outer = some outer → outer.index < i

namespace Scopes

/-- No scopes. -/
def empty : Scopes := ⟨#[], by simp⟩

/-- The variables and the outer scope of a scope. -/
def frame? (scopes : Scopes) (scope : ScopeId) : Option Frame := scopes.frames[scope.index]?

/-- Append a scope inside an earlier one, if any. -/
def push (scopes : Scopes) (outer : Option ScopeId)
    (h : ∀ scope, outer = some scope → scope.index < scopes.frames.size) : Scopes where
  frames := scopes.frames.push ⟨.empty, outer⟩
  outer_lt i frame hframe scope hscope := by
    rw [Array.getElem?_push] at hframe
    split at hframe
    · rename_i hi
      cases hframe
      exact hi ▸ h scope hscope
    · exact scopes.outer_lt i frame hframe scope hscope

/-- Make an outermost scope. -/
def new (scopes : Scopes) : ScopeId × Scopes :=
  (⟨scopes.frames.size⟩, scopes.push none fun _ h => nomatch h)

/-- Make a scope inside another. -/
def child (scopes : Scopes) (outer : ScopeId) : ScopeId × Scopes :=
  if h : outer.index < scopes.frames.size then
    (⟨scopes.frames.size⟩, scopes.push (some outer) fun _ hscope => by cases hscope; exact h)
  else scopes.new

/-- The nearest scope that binds a name, from a scope outwards. -/
def holder? (scopes : Scopes) (scope : ScopeId) (name : String) : Option ScopeId :=
  match hframe : scopes.frames[scope.index]? with
  | none => none
  | some frame =>
    if frame.bindings.contains name then some scope
    else
      match houter : frame.outer with
      | none => none
      | some outer =>
        have := scopes.outer_lt scope.index frame hframe outer houter
        scopes.holder? outer name
termination_by scope.index

/-- What a name is bound to in one scope, leaving the outer ones aside. -/
def own? (scopes : Scopes) (scope : ScopeId) (name : String) : Option Value := do
  (← scopes.frame? scope).bindings.get? name

/-- What a name means in a scope: the value of its nearest binding, from the scope outwards. -/
def get? (scopes : Scopes) (scope : ScopeId) (name : String) : Option Value :=
  match hframe : scopes.frames[scope.index]? with
  | none => none
  | some frame =>
    match frame.bindings.get? name with
    | some value => some value
    | none =>
      match houter : frame.outer with
      | none => none
      | some outer =>
        have := scopes.outer_lt scope.index frame hframe outer houter
        scopes.get? outer name
termination_by scope.index

/-- Bind a name in a scope, in place of its earlier binding there. -/
def define (scopes : Scopes) (scope : ScopeId) (name : String) (value : Value) : Scopes where
  frames := scopes.frames.modify scope.index fun frame =>
    { frame with bindings := frame.bindings.insert name value }
  outer_lt i frame hframe outer houter := by
    rw [Array.getElem?_modify] at hframe
    split at hframe
    · obtain ⟨before, hbefore, rfl⟩ := Option.map_eq_some_iff.mp hframe
      exact scopes.outer_lt i before hbefore outer houter
    · exact scopes.outer_lt i frame hframe outer houter

/-- Binding a name in a scope changes the variables of that scope only. -/
theorem frame?_define (scopes : Scopes) (scope other : ScopeId) (name : String) (value : Value) :
    (scopes.define scope name value).frame? other =
      if other = scope then
        (scopes.frame? other).map fun frame =>
          { frame with bindings := frame.bindings.insert name value }
      else scopes.frame? other := by
  obtain ⟨i⟩ := scope
  obtain ⟨j⟩ := other
  simp only [frame?, define, Array.getElem?_modify, ScopeId.mk.injEq, eq_comm]

/-- Write the nearest binding of a name from a scope outwards, if there is one. -/
def assign? (scopes : Scopes) (scope : ScopeId) (name : String) (value : Value) : Option Scopes :=
  match hframe : scopes.frames[scope.index]? with
  | none => none
  | some frame =>
    if frame.bindings.contains name then some (scopes.define scope name value)
    else
      match houter : frame.outer with
      | none => none
      | some outer =>
        have := scopes.outer_lt scope.index frame hframe outer houter
        scopes.assign? outer name value
termination_by scope.index

/-- Write the nearest binding of a name once it is known that there is one. -/
def tryAssign? (scopes : Scopes) (scope : ScopeId) (name : String) (value : Value) :
    Option Scopes :=
  if (scopes.holder? scope name).isSome then
    some ((scopes.assign? scope name value).getD scopes)
  else none

/-- Set a variable as a policy says. -/
def bind (scopes : Scopes) (scope : ScopeId) (name : String) (value : Value) (policy : Policy)
    (declaration : Bool) : Except Fault Scopes :=
  match policy with
  | .cannotExist =>
    if (scopes.own? scope name).isSome then throw (.alreadyDeclared name)
    else return scopes.define scope name value
  | .mustExist =>
    match scopes.assign? scope name value with
    | some written => return written
    | none => throw (.undefinedName name)
  | .unconstrained =>
    if declaration then return scopes.define scope name value
    else return (scopes.tryAssign? scope name value).getD (scopes.define scope name value)

end Scopes

end TreeScript
