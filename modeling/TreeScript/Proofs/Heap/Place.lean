import Mathlib.Logic.Relation
import TreeScript.Machine

/-!
# Places of the heap

Lists, objects, functions and scopes stand at places of the heap, each sort on a shelf of its own.
What stands at a place mentions other places: those of its values, of the scope around it and of
the scope a closure was defined in. Following such mentions is what it means to reach a place.

An operation on the heap adds something new at the end of a shelf or writes at one place. These
two are the only facts about the operations that the rest of the theory uses.
-/

namespace TreeScript

/-- The sorts of things that the heap holds. -/
inductive Shelf where
  | lists
  | objects
  | functions
  | scopes
deriving DecidableEq, Repr

/-- Where something stands in the heap. -/
structure Place where
  shelf : Shelf
  index : Nat
deriving DecidableEq, Repr

/-- The place of a scope. -/
def ScopeId.place (scope : ScopeId) : Place := ⟨.scopes, scope.index⟩

/-- The place that a value stands for, if it is not plain data. -/
def Value.place? : Value → Option Place
  | .list id => some ⟨.lists, id.index⟩
  | .object id => some ⟨.objects, id.index⟩
  | .function id => some ⟨.functions, id.index⟩
  | _ => none

/-- What stands at a place. -/
inductive Content where
  | items (items : Array Value)
  | properties (properties : Dictionary Value)
  | callable (callable : Callable)
  | frame (frame : Frame)

namespace Content

/-- The places that the values of a dictionary stand for. -/
def placesOf (dictionary : Dictionary Value) : List Place :=
  dictionary.entries.filterMap fun entry => entry.2.place?

/-- The places that are mentioned. -/
def places : Content → List Place
  | items values => values.toList.filterMap Value.place?
  | properties entries => placesOf entries
  | callable (.closure _ _ _ scope) => [scope.place]
  | callable (.builtin _) => []
  | frame ⟨bindings, outer⟩ => placesOf bindings ++ outer.toList.map ScopeId.place

/-- Write an element of a list. -/
def setItem (index : Nat) (value : Value) : Content → Content
  | items values => items (values.setIfInBounds index value)
  | other => other

/-- Write a property of an object or a variable of a scope. -/
def setEntry (name : String) (value : Value) : Content → Content
  | properties entries => properties (entries.insert name value)
  | frame ⟨bindings, outer⟩ => frame ⟨bindings.insert name value, outer⟩
  | other => other

end Content

namespace Heap

/-- How many things of a sort there are. -/
def size (heap : Heap) : Shelf → Nat
  | .lists => heap.lists.size
  | .objects => heap.objects.size
  | .functions => heap.functions.size
  | .scopes => heap.scopes.frames.size

/-- What stands at a place, if anything. -/
def content (heap : Heap) : Place → Option Content
  | ⟨.lists, index⟩ => heap.lists[index]?.map .items
  | ⟨.objects, index⟩ => heap.objects[index]?.map .properties
  | ⟨.functions, index⟩ => heap.functions[index]?.map .callable
  | ⟨.scopes, index⟩ => heap.scopes.frames[index]?.map .frame

/-- Something stands at the place. -/
def Has (heap : Heap) (place : Place) : Prop := place.index < heap.size place.shelf

/-- What stands at the first place mentions the second. -/
def Refers (heap : Heap) (first second : Place) : Prop :=
  ∃ content, heap.content first = some content ∧ second ∈ content.places

/-- The second place can be reached from the first. -/
def Reaches (heap : Heap) : Place → Place → Prop := Relation.ReflTransGen heap.Refers

variable {heap : Heap} {place : Place}

/-- Places that are not there have no content. -/
theorem content_eq_none_iff : heap.content place = none ↔ ¬ heap.Has place := by
  obtain ⟨shelf, index⟩ := place
  cases shelf <;> simp [content, Has, size]

/-- Places that are there have a content. -/
theorem has_iff : heap.Has place ↔ ∃ content, heap.content place = some content := by
  rw [← Option.ne_none_iff_exists', Ne, content_eq_none_iff, Classical.not_not]

/-- The next place of a shelf is not there yet. -/
theorem not_has_next (heap : Heap) (shelf : Shelf) : ¬ heap.Has ⟨shelf, heap.size shelf⟩ :=
  Nat.lt_irrefl _

/-- A set of places that is closed under mentions holds all that can be reached from it. -/
theorem Reaches.mem {kept : Place → Prop} {first second : Place} (h : heap.Reaches first second)
    (hfirst : kept first)
    (hclosed : ∀ place next, kept place → heap.Refers place next → kept next) : kept second := by
  induction h with
  | refl => exact hfirst
  | tail _ hrefers ih => exact hclosed _ _ ih hrefers

/-! ## Additions -/

/-- What is pushed to an array is found at its end. -/
theorem map_getElem?_push {α β : Type} (items : Array α) (item : α) (f : α → β) (i : Nat) :
    (items.push item)[i]?.map f = if i = items.size then some (f item) else items[i]?.map f := by
  rw [Array.getElem?_push]
  split <;> rfl

/-- Something new stands at the end of a shelf, and everything else is as it was. -/
structure Adds (before after : Heap) (shelf : Shelf) (added : Content) : Prop where
  content_eq : ∀ place, after.content place =
    if place = ⟨shelf, before.size shelf⟩ then some added else before.content place
  size_eq : ∀ other, after.size other =
    if other = shelf then before.size other + 1 else before.size other

/-- A new list is added. -/
theorem adds_newList (heap : Heap) (items : List Value) :
    heap.Adds (heap.newList items).2 .lists (.items items.toArray) where
  content_eq := by
    rintro ⟨shelf, index⟩
    cases shelf <;> simp [content, size, newList, map_getElem?_push]
  size_eq other := by cases other <;> simp [size, newList]

/-- A new object is added. -/
theorem adds_newObject (heap : Heap) (properties : Dictionary Value) :
    heap.Adds (heap.newObject properties).2 .objects (.properties properties) where
  content_eq := by
    rintro ⟨shelf, index⟩
    cases shelf <;> simp [content, size, newObject, map_getElem?_push]
  size_eq other := by cases other <;> simp [size, newObject]

/-- A new function is added. -/
theorem adds_newFunction (heap : Heap) (callable : Callable) :
    heap.Adds (heap.newFunction callable).2 .functions (.callable callable) where
  content_eq := by
    rintro ⟨shelf, index⟩
    cases shelf <;> simp [content, size, newFunction, map_getElem?_push]
  size_eq other := by cases other <;> simp [size, newFunction]

/-- The scope around a new scope, which must have been made before. -/
def around (heap : Heap) (outer : ScopeId) : Option ScopeId :=
  if outer.index < heap.scopes.frames.size then some outer else none

/-- A new scope gets the next number. -/
theorem newScope_fst (heap : Heap) (outer : ScopeId) :
    (heap.newScope outer).1 = ⟨heap.size .scopes⟩ := by
  by_cases h : outer.index < heap.scopes.frames.size <;>
    simp [newScope, Scopes.child, Scopes.new, size, h]

/-- A new scope is added, empty. -/
theorem adds_newScope (heap : Heap) (outer : ScopeId) :
    heap.Adds (heap.newScope outer).2 .scopes (.frame ⟨.empty, heap.around outer⟩) := by
  have hframes : (heap.newScope outer).2.scopes.frames =
      heap.scopes.frames.push ⟨.empty, heap.around outer⟩ := by
    by_cases h : outer.index < heap.scopes.frames.size <;>
      simp [newScope, Scopes.child, Scopes.new, Scopes.push, around, h]
  have hrest : (heap.newScope outer).2 = { heap with scopes := (heap.newScope outer).2.scopes } :=
    rfl
  rw [hrest]
  constructor
  · rintro ⟨shelf, index⟩
    cases shelf <;> simp [content, size, hframes, map_getElem?_push]
  · intro other
    cases other <;> simp [size, hframes]

/-! ## Writes -/

/-- What is modified in an array is found modified. -/
theorem map_getElem?_modify {α β : Type} (items : Array α) (j : Nat) {change : α → α}
    {f : α → β} {change' : β → β} (h : ∀ item, f (change item) = change' (f item)) (i : Nat) :
    (items.modify j change)[i]?.map f =
      if i = j then (items[i]?.map f).map change' else items[i]?.map f := by
  rw [Array.getElem?_modify]
  by_cases hi : j = i
  · rw [if_pos hi, if_pos hi.symm, Option.map_map, Option.map_map]
    exact congrArg (Option.map · _) (funext h)
  · rw [if_neg hi, if_neg (Ne.symm hi)]

/-- What stands at one place is changed, and everything else is as it was. -/
structure Writes (before after : Heap) (target : Place) (change : Content → Content) : Prop where
  content_eq : ∀ place, after.content place =
    if place = target then (before.content place).map change else before.content place
  size_eq : ∀ shelf, after.size shelf = before.size shelf

/-- A write adds no place. -/
theorem Writes.has_iff {before after : Heap} {target : Place} {change : Content → Content}
    (h : before.Writes after target change) : after.Has place ↔ before.Has place := by
  rw [Has, h.size_eq, Has]

/-- To set an element writes to its list. -/
theorem writes_setItem (heap : Heap) (list : ListId) (index : Nat) (value : Value) :
    heap.Writes (heap.setItem list index value) ⟨.lists, list.index⟩ (.setItem index value) where
  content_eq := by
    rintro ⟨shelf, other⟩
    cases shelf with
    | lists =>
      simp only [Place.mk.injEq, true_and]
      exact map_getElem?_modify heap.lists list.index (by intro; rfl) other
    | _ => rfl
  size_eq shelf := by cases shelf <;> simp [size, setItem]

/-- To set a property writes to its object. -/
theorem writes_setProperty (heap : Heap) (object : ObjectId) (key : String) (value : Value) :
    heap.Writes (heap.setProperty object key value) ⟨.objects, object.index⟩
      (.setEntry key value) where
  content_eq := by
    rintro ⟨shelf, other⟩
    cases shelf with
    | objects =>
      simp only [Place.mk.injEq, true_and]
      exact map_getElem?_modify heap.objects object.index (by intro; rfl) other
    | _ => rfl
  size_eq shelf := by cases shelf <;> simp [size, setProperty]

/-- To define a name writes to its scope. -/
theorem writes_define (heap : Heap) (scope : ScopeId) (name : String) (value : Value) :
    heap.Writes (heap.define scope name value) scope.place (.setEntry name value) where
  content_eq := by
    rintro ⟨shelf, other⟩
    cases shelf with
    | scopes =>
      simp only [ScopeId.place, Place.mk.injEq, true_and]
      exact map_getElem?_modify heap.scopes.frames scope.index (by intro; rfl) other
    | _ => rfl
  size_eq shelf := by cases shelf <;> simp [size, define, Scopes.define]

/-! ## Members and elements -/

section

variable {after : Heap} {target key value : Value} {member : String}

/-- Only objects have members to set. -/
theorem setMember_eq_ok_iff :
    heap.setMember target member value = .ok after ↔
      ∃ object, target = .object object ∧ heap.setProperty object member value = after := by
  constructor
  · intro h
    unfold setMember at h
    split at h
    · rename_i object
      exact ⟨object, rfl, Except.ok.inj h⟩
    · cases h
  · rintro ⟨object, rfl, rfl⟩
    rfl

/-- What a write can do: set an element at a position within a list, or a property of an object. -/
theorem setIndex_eq_ok_iff :
    heap.setIndex target key value = .ok after ↔
      (∃ list i slot, target = .list list ∧ key = .int i ∧
        position? i (heap.items list).size = some slot ∧ heap.setItem list slot value = after) ∨
      ∃ object name, target = .object object ∧ key = .string name ∧
        heap.setProperty object name value = after := by
  constructor
  · intro h
    unfold setIndex at h
    split at h
    · rename_i list i
      dsimp only at h
      split at h
      · rename_i slot hslot
        exact .inl ⟨list, i, slot, rfl, rfl, hslot, Except.ok.inj h⟩
      · cases h
    · rename_i object name
      exact .inr ⟨object, name, rfl, rfl, Except.ok.inj h⟩
    · cases h
  · rintro (⟨list, i, slot, rfl, rfl, hslot, rfl⟩ | ⟨object, name, rfl, rfl, rfl⟩)
    · simp only [setIndex, hslot]
      rfl
    · rfl

end

end Heap

end TreeScript
