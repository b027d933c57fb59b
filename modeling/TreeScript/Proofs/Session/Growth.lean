import TreeScript.Proofs.Session.Locals

/-!
# A machine only grows

Whatever runs on a machine, and whether it succeeds or fails, nothing that was there is taken
away. Lists keep their lengths, objects their keys and scopes their names, though there may be
other values under them. Scopes stay where they lie, functions stay what they are, and lines that
have been printed stay in front of those that follow.
-/

namespace TreeScript

/-- An element of an array is where it was when another one is pushed. -/
theorem getElem?_push_of_eq_some {α : Type} {items : Array α} {i : Nat} {item : α}
    (h : items[i]? = some item) (pushed : α) : (items.push pushed)[i]? = some item := by
  obtain ⟨hlt, -⟩ := Array.getElem?_eq_some_iff.mp h
  rw [Array.getElem?_push, if_neg (Nat.ne_of_lt hlt), h]

/-- An item of an array that is modified at one place is what it was or what it becomes there. -/
theorem getElem?_modify_cases {α : Type} {items : Array α} {i : Nat} {item : α}
    (h : items[i]? = some item) (j : Nat) (change : α → α) :
    (items.modify j change)[i]? = some item ∨ (items.modify j change)[i]? = some (change item) := by
  rw [Array.getElem?_modify, h]
  by_cases hsame : j = i
  · rw [if_pos hsame]
    exact .inr rfl
  · rw [if_neg hsame]
    exact .inl rfl

namespace Machine

/-- All that is in one machine is in another, with at most other values in its slots. -/
structure Grows (before after : Machine) : Prop where
  /-- Every list is still there and as long as it was. -/
  lists : ∀ {list : ListId} {items : Array Value}, before.heap.lists[list.index]? = some items →
    ∃ items', after.heap.lists[list.index]? = some items' ∧ items'.size = items.size
  /-- Every object is still there and has the keys that it had. -/
  objects : ∀ {object : ObjectId} {properties : Dictionary Value},
    before.heap.objects[object.index]? = some properties →
      ∃ properties', after.heap.objects[object.index]? = some properties' ∧
        ∀ key, properties.contains key = true → properties'.contains key = true
  /-- Every function is what it was, with its definition and the scope it was defined in. -/
  functions : ∀ {function : FunctionId} {callable : Callable},
    before.heap.callable? function = some callable → after.heap.callable? function = some callable
  /-- Every scope binds the names that it bound. -/
  names : ∀ {scope : ScopeId} {name : String}, before.heap.scopes.binds name scope = true →
    after.heap.scopes.binds name scope = true
  /-- Every scope is still there and lies inside the same scope, if any. -/
  outer : ∀ {scope : ScopeId}, before.heap.scopes.Has scope →
    after.heap.scopes.outer? scope = before.heap.scopes.outer? scope
  /-- The lines printed before come first. -/
  output : before.output.toList <+: after.output.toList

namespace Grows

/-- A machine grows to itself. -/
theorem refl (machine : Machine) : machine.Grows machine where
  lists hitems := ⟨_, hitems, rfl⟩
  objects hproperties := ⟨_, hproperties, fun _ hkey => hkey⟩
  functions hcallable := hcallable
  names hname := hname
  outer _ := rfl
  output := List.prefix_refl _

/-- Growth goes on. -/
theorem trans {first second last : Machine} (h : first.Grows second) (hnext : second.Grows last) :
    first.Grows last where
  lists hitems := by
    obtain ⟨items', hitems', hsize⟩ := h.lists hitems
    obtain ⟨items'', hitems'', hsize'⟩ := hnext.lists hitems'
    exact ⟨items'', hitems'', hsize'.trans hsize⟩
  objects hproperties := by
    obtain ⟨properties', hproperties', hkeys⟩ := h.objects hproperties
    obtain ⟨properties'', hproperties'', hkeys'⟩ := hnext.objects hproperties'
    exact ⟨properties'', hproperties'', fun key hkey => hkeys' key (hkeys key hkey)⟩
  functions hcallable := hnext.functions (h.functions hcallable)
  names hname := hnext.names (h.names hname)
  outer {scope} hscope := by
    have hhas : second.heap.scopes.Has scope := by
      rw [Scopes.has_iff, h.outer hscope]
      exact Scopes.has_iff.mp hscope
    exact (hnext.outer hhas).trans (h.outer hscope)
  output := h.output.trans hnext.output

/-- Scopes that are extended grow. -/
theorem of_extends {machine : Machine} {scopes : Scopes} {inside : ScopeId}
    (h : Scopes.Extends inside machine.heap.scopes scopes) :
    machine.Grows { machine with heap := { machine.heap with scopes } } :=
  { refl machine with
    names := h.keeps
    outer := h.outer }

end Grows

variable {scope : ScopeId} {first second last : Machine}

/-- Every change is growth. -/
theorem Change.grows (h : Change scope first second) : first.Grows second := by
  cases h with
  | bind hbind => exact .of_extends (Scopes.extends_bind hbind)
  | setProperty object key value =>
    refine { Grows.refl first with objects := fun {other properties} hproperties => ?_ }
    rcases getElem?_modify_cases hproperties object.index (·.insert key value) with hsame | hwritten
    · exact ⟨properties, hsame, fun _ hname => hname⟩
    · refine ⟨properties.insert key value, hwritten, fun name hname => ?_⟩
      rw [Dictionary.contains, Dictionary.get?_insert]
      by_cases hkey : name = key
      · rw [if_pos hkey, Option.isSome_some]
      · rw [if_neg hkey]
        exact hname
  | setItem list index value =>
    refine { Grows.refl first with lists := fun {other items} hitems => ?_ }
    rcases getElem?_modify_cases hitems list.index (·.setIfInBounds index value) with
      hsame | hwritten
    · exact ⟨items, hsame, rfl⟩
    · exact ⟨items.setIfInBounds index value, hwritten, Array.size_setIfInBounds⟩
  | newList items =>
    exact { Grows.refl first with
      lists := fun hitems => ⟨_, getElem?_push_of_eq_some hitems _, rfl⟩ }
  | newObject properties =>
    exact { Grows.refl first with
      objects := fun hproperties =>
        ⟨_, getElem?_push_of_eq_some hproperties _, fun _ hkey => hkey⟩ }
  | newFunction name parameters body =>
    exact { Grows.refl first with
      functions := fun hcallable => getElem?_push_of_eq_some hcallable _ }
  | setStack => exact { Grows.refl first with }
  | writeLine line =>
    refine { Grows.refl first with output := ?_ }
    rw [Array.toList_push]
    exact List.prefix_append _ _

/-- A call begins with a new scope, and the scopes that were there stay. -/
theorem grows_newScope (machine : Machine) (outer : ScopeId) :
    machine.Grows { machine with heap := (machine.heap.newScope outer).2 } :=
  .of_extends (Scopes.extends_child outer outer machine.heap.scopes).1

/-- So is every run. -/
theorem Trace.grows (h : Trace scope first last) : first.Grows last := by
  induction h with
  | stay scope machine => exact .refl machine
  | change hchange _ ih => exact hchange.grows.trans ih
  | @call scope outer first second last _ _ ihinner ih =>
    exact ((first.grows_newScope outer).trans ihinner).trans ih

end Machine

/-- From every machine, in every scope and inside any number of calls, evaluating or executing an
operation, calling a value and running a program lead to a machine that has grown from it, whether
they succeed or fail. -/
theorem machine_grows (machine : Machine) :
    (∀ (depth : Nat) (scope : ScopeId) (operation : Operation),
      machine.Grows (evaluate depth scope operation machine).2 ∧
      machine.Grows (execute depth scope operation machine).2) ∧
    (∀ (depth : Nat) (callee : Value) (arguments : List Value),
      machine.Grows (call depth callee arguments machine).2) ∧
    ∀ (program : Program) (scope : ScopeId), machine.Grows (program.run scope machine).2 := by
  refine ⟨fun depth scope operation => ⟨?_, ?_⟩, fun depth callee arguments => ?_,
    fun program scope => ?_⟩
  · exact (evaluate_traces depth scope operation machine).grows
  · exact (execute_traces depth scope operation machine).grows
  · exact (call_traces depth ⟨0⟩ callee arguments machine).grows
  · exact (program.run_traces scope machine).grows

end TreeScript
