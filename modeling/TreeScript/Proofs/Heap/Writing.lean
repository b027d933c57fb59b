import TreeScript.Proofs.Heap.Reading

/-!
# What is written to heaps that are alike

Each operation that changes the heap takes two heaps that are alike to heaps that are alike. In
the first of them it changes nothing but what stands at matched places, and never a function. No
operation makes a heap smaller.
-/

namespace TreeScript

namespace Heap

variable {matching : Matching} {limit : Shelf → Nat} {heap other before after last : Heap}
variable {change : Content → Content} {scope outer outer' : ScopeId} {values values' : List Value}

/-! ## Sizes -/

/-- Nothing is removed from a heap. -/
def Enlarges (before after : Heap) : Prop := ∀ shelf, before.size shelf ≤ after.size shelf

/-- A write keeps every place. -/
theorem Writes.enlarges {target : Place} (h : before.Writes after target change) :
    before.Enlarges after :=
  fun shelf => Nat.le_of_eq (h.size_eq shelf).symm

/-- An addition keeps every place. -/
theorem Adds.enlarges {shelf : Shelf} {added : Content} (h : before.Adds after shelf added) :
    before.Enlarges after := by
  intro other
  rw [h.size_eq]
  split <;> omega

/-- To set a member keeps every place. -/
theorem enlarges_of_setMember {target value : Value} {member : String}
    (h : heap.setMember target member value = .ok after) : heap.Enlarges after := by
  obtain ⟨object, -, rfl⟩ := setMember_eq_ok_iff.mp h
  exact (heap.writes_setProperty object member value).enlarges

/-- To set an element keeps every place. -/
theorem enlarges_of_setIndex {target index value : Value}
    (h : heap.setIndex target index value = .ok after) : heap.Enlarges after := by
  rcases setIndex_eq_ok_iff.mp h with
    ⟨list, i, slot, -, -, -, rfl⟩ | ⟨object, name, -, -, rfl⟩
  · exact (heap.writes_setItem list slot value).enlarges
  · exact (heap.writes_setProperty object name value).enlarges

/-- To bind a name keeps every place. -/
theorem enlarges_of_bind {name : String} {value : Value} {policy : Policy} {declaration : Bool}
    {scopes : Scopes} (h : heap.scopes.bind scope name value policy declaration = .ok scopes) :
    heap.Enlarges { heap with scopes } := by
  rw [Scopes.bind_eq] at h
  split at h
  · cases h
  · cases h
    exact (heap.writes_define _ name value).enlarges

/-- Parameters are bound in a scope that is there. -/
theorem size_bindParameters (heap : Heap) (scope : ScopeId) (names : List String)
    (values : List Value) (shelf : Shelf) :
    (heap.bindParameters scope names values).size shelf = heap.size shelf := by
  induction names generalizing heap values with
  | nil => rfl
  | cons name names ih =>
    cases values with
    | nil => exact (ih _ []).trans ((heap.writes_define scope name .null).size_eq shelf)
    | cons value values =>
      exact (ih _ values).trans ((heap.writes_define scope name value).size_eq shelf)

/-- Entering a call makes a scope and nothing else. -/
theorem size_enterCall (heap : Heap) (outer : ScopeId) (names : List String)
    (values : List Value) (shelf : Shelf) :
    (heap.enterCall outer names values).2.size shelf = (heap.newScope outer).2.size shelf :=
  size_bindParameters _ _ names values shelf

/-! ## What is spared -/

/-- What stood at a place before is still there, unless the place is matched and holds no
function. -/
structure Spares (matching : Matching) (before after : Heap) : Prop where
  enlarges : before.Enlarges after
  content_eq : ∀ {place : Place}, before.Has place →
    (place.shelf = .functions ∨ ∀ place', ¬ matching.Pairs place place') →
      after.content place = before.content place

namespace Spares

/-- A heap spares what it leaves alone. -/
theorem refl (matching : Matching) (heap : Heap) : heap.Spares matching heap where
  enlarges _ := Nat.le_refl _
  content_eq _ _ := rfl

/-- What is spared twice is spared. -/
theorem trans (h : before.Spares matching after) (hnext : after.Spares matching last) :
    before.Spares matching last where
  enlarges shelf := Nat.le_trans (h.enlarges shelf) (hnext.enlarges shelf)
  content_eq {place} hplace hspared := by
    have hafter : after.Has place := Nat.lt_of_lt_of_le hplace (h.enlarges place.shelf)
    exact (hnext.content_eq hafter hspared).trans (h.content_eq hplace hspared)

end Spares

/-- An addition writes to no old place. -/
theorem Adds.spares {shelf : Shelf} {added : Content} (h : before.Adds after shelf added) :
    before.Spares matching after where
  enlarges := h.enlarges
  content_eq {place} hplace _ := by
    rw [h.content_eq, if_neg]
    rintro rfl
    exact before.not_has_next shelf hplace

/-- A write to a paired place spares the others. -/
theorem Writes.spares {target target' : Place} (h : before.Writes after target change)
    (htarget : matching.Pairs target target') (hshelf : target.shelf ≠ .functions) :
    before.Spares matching after where
  enlarges := h.enlarges
  content_eq {place} _ hspared := by
    rw [h.content_eq, if_neg]
    rintro rfl
    rcases hspared with hfunction | hfree
    · exact hshelf hfunction
    · exact hfree target' htarget

/-- Both heaps have been taken to heaps that are alike, the first of them sparing what is not
matched. -/
structure Advances (matching : Matching) (limit : Shelf → Nat) (heap after after' : Heap) :
    Prop where
  joined : after.Joined matching limit after'
  spares : heap.Spares matching after

namespace Joined

variable (h : heap.Joined matching limit other) {value value' : Value}
variable {scope' : ScopeId}

include h

/-! ## Elements, properties and variables -/

/-- Paired lists may have the same element set. -/
theorem setItem {list list' : ListId}
    (hlist : matching.Pairs ⟨.lists, list.index⟩ ⟨.lists, list'.index⟩) (index : Nat)
    (hvalue : value.Matches matching value') :
    heap.Advances matching limit (heap.setItem list index value)
      (other.setItem list' index value') where
  joined := h.write (heap.writes_setItem list index value) (other.writes_setItem list' index value')
    hlist fun hmatch => hmatch.setItem index hvalue
  spares := (heap.writes_setItem list index value).spares hlist (by simp)

/-- Paired objects may have the same property set. -/
theorem setProperty {object object' : ObjectId}
    (hobject : matching.Pairs ⟨.objects, object.index⟩ ⟨.objects, object'.index⟩) (key : String)
    (hvalue : value.Matches matching value') :
    heap.Advances matching limit (heap.setProperty object key value)
      (other.setProperty object' key value') where
  joined := h.write (heap.writes_setProperty object key value)
    (other.writes_setProperty object' key value') hobject fun hmatch => hmatch.setEntry key hvalue
  spares := (heap.writes_setProperty object key value).spares hobject (by simp)

/-- A name may be defined in paired scopes. -/
theorem define (hscope : matching.Pairs scope.place scope'.place) (name : String)
    (hvalue : value.Matches matching value') :
    heap.Advances matching limit (heap.define scope name value)
      (other.define scope' name value') where
  joined := h.write (heap.writes_define scope name value) (other.writes_define scope' name value')
    hscope fun hmatch => hmatch.setEntry name hvalue
  spares := (heap.writes_define scope name value).spares hscope (by simp [ScopeId.place])

/-- To set a member succeeds on both heaps or on none. -/
theorem agree_setMember {target target' : Value} (htarget : target.Matches matching target')
    (member : String) (hvalue : value.Matches matching value') :
    Agree (heap.Advances matching limit) (heap.setMember target member value)
      (other.setMember target' member value') := by
  cases htarget with
  | plain hplain =>
    cases target with
    | list | object | function => cases hplain
    | _ => exact .error _
  | object hobject => exact .ok (h.setProperty hobject member hvalue)
  | list | function => exact .error _

/-- To set an element succeeds on both heaps or on none. -/
theorem agree_setIndex {target target' index index' : Value}
    (htarget : target.Matches matching target') (hindex : index.Matches matching index')
    (hvalue : value.Matches matching value') :
    Agree (heap.Advances matching limit) (heap.setIndex target index value)
      (other.setIndex target' index' value') := by
  have hrefuse (type : ValueType) : Agree (heap.Advances matching limit)
      (.error (.indexWrite type index.type)) (.error (.indexWrite type index'.type)) := by
    rw [hindex.type_eq]
    exact .error _
  cases htarget with
  | plain hplain =>
    cases target with
    | list | object | function => cases hplain
    | _ => exact hrefuse _
  | list hlist =>
    cases hindex with
    | plain hplain =>
      cases index with
      | int i =>
        unfold Heap.setIndex
        dsimp only
        rw [h.size_items_eq hlist]
        split
        · exact .ok (h.setItem hlist _ hvalue)
        · exact .error _
      | _ => exact .error _
    | list | object | function => exact .error _
  | object hobject =>
    cases hindex with
    | plain hplain =>
      cases index with
      | string key => exact .ok (h.setProperty hobject key hvalue)
      | _ => exact .error _
    | list | object | function => exact .error _
  | function => exact hrefuse _

/-- To bind a name succeeds on both heaps or on none. -/
theorem agree_bind (hscope : matching.Pairs scope.place scope'.place) (name : String)
    (hvalue : value.Matches matching value') (policy : Policy) (declaration : Bool) :
    Agree (heap.Advances matching limit)
      (do
        let scopes ← heap.scopes.bind scope name value policy declaration
        return { heap with scopes })
      (do
        let scopes ← other.scopes.bind scope' name value' policy declaration
        return { other with scopes }) := by
  rw [Scopes.bind_eq, Scopes.bind_eq, h.refusal?_eq hscope name policy]
  cases other.scopes.refusal? scope' name policy with
  | some fault => exact .error fault
  | none => exact .ok (h.define (h.pairs_slot hscope name policy declaration) name hvalue)

/-! ## New lists, objects, functions and scopes -/

/-- New lists of matching values are paired. -/
theorem newList (hvalues : List.Forall₂ (Value.Matches matching) values values')
    (hlimit : ∀ shelf, (heap.newList values).2.size shelf ≤ limit shelf) :
    (heap.newList values).1.Matches matching (other.newList values').1 ∧
      heap.Advances matching limit (heap.newList values).2 (other.newList values').2 := by
  have hadds := heap.adds_newList values
  have hnew : heap.size .lists < limit .lists := by
    have hsize := hlimit .lists
    rwa [hadds.size_eq, if_pos rfl] at hsize
  refine ⟨.list (h.pairs_next hnew), h.add hadds (other.adds_newList values') hnew ?_, hadds.spares⟩
  exact .items hvalues

/-- New objects are paired. -/
theorem newObject (hlimit : ∀ shelf, (heap.newObject .empty).2.size shelf ≤ limit shelf) :
    (heap.newObject .empty).1.Matches matching (other.newObject .empty).1 ∧
      heap.Advances matching limit (heap.newObject .empty).2 (other.newObject .empty).2 := by
  have hadds := heap.adds_newObject .empty
  have hnew : heap.size .objects < limit .objects := by
    have hsize := hlimit .objects
    rwa [hadds.size_eq, if_pos rfl] at hsize
  refine ⟨.object (h.pairs_next hnew), h.add hadds (other.adds_newObject .empty) hnew ?_,
    hadds.spares⟩
  exact .properties (Dictionary.matches_empty matching)

/-- New functions that match are paired. -/
theorem newFunction {callable callable' : Callable}
    (hcallable : (Content.callable callable).Matches matching (.callable callable'))
    (hlimit : ∀ shelf, (heap.newFunction callable).2.size shelf ≤ limit shelf) :
    (heap.newFunction callable).1.Matches matching (other.newFunction callable').1 ∧
      heap.Advances matching limit (heap.newFunction callable).2
        (other.newFunction callable').2 := by
  have hadds := heap.adds_newFunction callable
  have hnew : heap.size .functions < limit .functions := by
    have hsize := hlimit .functions
    rwa [hadds.size_eq, if_pos rfl] at hsize
  exact ⟨.function (h.pairs_next hnew),
    h.add hadds (other.adds_newFunction callable') hnew hcallable, hadds.spares⟩

/-- Paired scopes are found or missing alike. -/
theorem rel_around (houter : matching.Pairs outer.place outer'.place) :
    Option.Rel (fun scope scope' => matching.Pairs scope.place scope'.place)
      (heap.around outer) (other.around outer') := by
  have hhas : outer.index < heap.scopes.frames.size ↔ outer'.index < other.scopes.frames.size :=
    h.has_iff houter
  unfold Heap.around
  by_cases hscope : outer.index < heap.scopes.frames.size
  · rw [if_pos hscope, if_pos (hhas.mp hscope)]
    exact .some houter
  · rw [if_neg hscope, if_neg (mt hhas.mpr hscope)]
    exact .none

/-- New scopes inside paired ones are paired. -/
theorem newScope (houter : matching.Pairs outer.place outer'.place)
    (hlimit : ∀ shelf, (heap.newScope outer).2.size shelf ≤ limit shelf) :
    matching.Pairs (heap.newScope outer).1.place (other.newScope outer').1.place ∧
      heap.Advances matching limit (heap.newScope outer).2 (other.newScope outer').2 := by
  have hadds := heap.adds_newScope outer
  have hnew : heap.size .scopes < limit .scopes := by
    have hsize := hlimit .scopes
    rwa [hadds.size_eq, if_pos rfl] at hsize
  rw [newScope_fst, newScope_fst]
  refine ⟨h.pairs_next hnew, h.add hadds (other.adds_newScope outer') hnew ?_, hadds.spares⟩
  exact .frame (Dictionary.matches_empty matching) (h.rel_around houter)

/-- Parameters of matching values may be bound in paired scopes. -/
theorem bindParameters (hscope : matching.Pairs scope.place scope'.place) (names : List String)
    (hvalues : List.Forall₂ (Value.Matches matching) values values') :
    heap.Advances matching limit (heap.bindParameters scope names values)
      (other.bindParameters scope' names values') := by
  induction names generalizing heap other values values' with
  | nil => exact ⟨h, .refl matching heap⟩
  | cons name names ih =>
    cases hvalues with
    | nil =>
      have hdefine := h.define hscope name (.plain rfl : Value.null.Matches matching .null)
      have hrest := ih hdefine.joined .nil
      exact ⟨hrest.joined, hdefine.spares.trans hrest.spares⟩
    | cons hvalue hrest =>
      have hdefine := h.define hscope name hvalue
      have hothers := ih hdefine.joined hrest
      exact ⟨hothers.joined, hdefine.spares.trans hothers.spares⟩

end Joined

/-- The scope of a call, with arguments that are alike. -/
theorem Joined.enterCall (h : heap.Joined matching limit other)
    (houter : matching.Pairs outer.place outer'.place) (names : List String)
    (hvalues : List.Forall₂ (Value.Matches matching) values values')
    (hlimit : ∀ shelf, (heap.enterCall outer names values).2.size shelf ≤ limit shelf) :
    matching.Pairs (heap.enterCall outer names values).1.place
        (other.enterCall outer' names values').1.place ∧
      heap.Advances matching limit (heap.enterCall outer names values).2
        (other.enterCall outer' names values').2 := by
  have hentered : ∀ shelf, (heap.newScope outer).2.size shelf ≤ limit shelf := by
    intro shelf
    rw [← size_enterCall heap outer names values shelf]
    exact hlimit shelf
  obtain ⟨hscope, hnew⟩ := h.newScope houter hentered
  have hbound := hnew.joined.bindParameters hscope names hvalues
  exact ⟨hscope, hbound.joined, hnew.spares.trans hbound.spares⟩

end Heap

end TreeScript
