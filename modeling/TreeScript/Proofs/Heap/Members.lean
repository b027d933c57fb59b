import Mathlib.Algebra.Group.Int.Defs
import Mathlib.Data.Option.Basic
import Mathlib.Data.String.Basic
import TreeScript.Machine.Evaluate
import TreeScript.Proofs.Heap.Place
import TreeScript.Proofs.Outcome

/-!
# Members and elements agree

Lists and strings are sequences: `Heap.elements?` gives their elements. Their length is the same
whether it is asked for as a member or by the builtin, and a position leads to an element exactly if
it is below the length. Objects have the same properties as members and under strings as indices.

A write that succeeds is read back, and no other read notices it. A write that fails leaves
everything as it was.
-/

namespace TreeScript

open Evaluation

/-! ## Positions -/

section

variable {index : Int64} {length slot : Nat}

/-- An index is a natural number if it is not negative. -/
theorem offset?_eq_some_iff : offset? index = some slot ↔ index.toInt = slot := by
  rw [offset?, Option.ite_none_right_eq_some, Option.some.injEq]
  omega

/-- The position of an index is the index itself if it is within the bounds. -/
theorem position?_eq_some_iff :
    position? index length = some slot ↔ index.toInt = slot ∧ slot < length := by
  rw [position?, Option.filter_eq_some_iff, offset?_eq_some_iff, decide_eq_true_iff]

/-- An index outside the bounds has no position. -/
theorem position?_eq_none_iff :
    position? index length = none ↔ ¬ (0 ≤ index.toInt ∧ index.toInt < length) := by
  rw [Option.eq_none_iff_forall_ne_some]
  simp only [Ne, position?_eq_some_iff]
  constructor
  · intro h hbounds
    exact h index.toInt.toNat (by omega)
  · intro h slot hslot
    omega

/-- Elements beyond the end are not there, so the bounds need no check before one is read. -/
theorem bind_offset?_eq_bind_position? {α : Type} (elements : List α) :
    (offset? index).bind (elements[·]?) =
      (position? index elements.length).bind (elements[·]?) := by
  rw [position?]
  cases offset? index with
  | none => rfl
  | some slot =>
    by_cases hslot : slot < elements.length
    · simp [Option.filter_some, hslot]
    · simp [Option.filter_some, hslot]

end

/-- A count is an integer, the greatest one at most. -/
theorem exists_ofCount (count : Nat) :
    ∃ length : Int64, Value.ofCount count = .int length ∧
      length.toInt = min (count : Int) Int64.maxValue.toInt := by
  have hmax : Int64.maxValue.toInt = 2 ^ 63 - 1 := by decide
  refine ⟨_, rfl, ?_⟩
  split
  · rw [Int64.toInt_ofNat_of_lt (by omega)]
    omega
  · omega

/-! ## Sequences -/

namespace Heap

variable {heap after : Heap} {target key value : Value} {elements : List Value}

/-- The elements of a list or string, those of a string being strings of one character. -/
def elements? (heap : Heap) : Value → Option (List Value)
  | .list list => some (heap.items list).toList
  | .string text => some (text.toList.map fun c => .string (String.singleton c))
  | _ => none

/-- Elements are counted. -/
theorem length?_of_elements? (h : heap.elements? target = some elements) :
    heap.length? target = some elements.length := by
  cases target with
  | list list =>
    cases h
    rfl
  | string text =>
    cases h
    rw [List.length_map, String.length_toList]
    rfl
  | _ => cases h

/-- The length is a member. -/
theorem getMember_length (h : heap.elements? target = some elements) :
    heap.getMember target "length" = .ok (.ofCount elements.length) := by
  cases target with
  | list list =>
    cases h
    rfl
  | string text =>
    cases h
    rw [List.length_map]
    rfl
  | _ => cases h

/-- An index finds the element at its position. -/
theorem getIndex_of_elements? (h : heap.elements? target = some elements) (i : Int64) :
    heap.getIndex target (.int i) =
      .ok (((position? i elements.length).bind (elements[·]?)).getD .null) := by
  cases target with
  | list list =>
    cases h
    simp [getIndex, pure, Except.pure]
  | string text =>
    cases h
    rw [← bind_offset?_eq_bind_position?]
    change Except.ok _ = _
    cases offset? i with
    | none => rfl
    | some slot =>
      rw [Option.bind_some, Option.bind_some, List.getElem?_map]
      cases text.toList[slot]? <;> rfl
  | _ => cases h

/-- An index inside finds its element. -/
theorem getIndex_inside (h : heap.elements? target = some elements) {i : Int64} {n : Nat}
    (hi : i.toInt = n) (hn : n < elements.length) :
    heap.getIndex target (.int i) = .ok (elements.get ⟨n, hn⟩) := by
  rw [getIndex_of_elements? h, position?_eq_some_iff.mpr ⟨hi, hn⟩, Option.bind_some,
    List.getElem?_eq_getElem hn]
  rfl

/-- An index outside finds null. -/
theorem getIndex_outside (h : heap.elements? target = some elements) {i : Int64}
    (hi : ¬ (0 ≤ i.toInt ∧ i.toInt < elements.length)) :
    heap.getIndex target (.int i) = .ok .null := by
  rw [getIndex_of_elements? h, position?_eq_none_iff.mpr hi]
  rfl

/-- The characters of a string make up the string. -/
theorem exists_pieces (heap : Heap) (text : String) :
    ∃ pieces : List String, pieces.length = text.length ∧ String.join pieces = text ∧
      ∀ (i : Int64) (n : Nat) (hn : n < pieces.length), i.toInt = n →
        heap.getIndex (.string text) (.int i) = .ok (.string (pieces.get ⟨n, hn⟩)) := by
  refine ⟨text.toList.map String.singleton, ?_, ?_, ?_⟩
  · rw [List.length_map, String.length_toList]
  · simp [String.join_eq, Function.comp_def, ← List.flatMap_def]
  · intro i n hn hi
    have hread := @getIndex_inside heap (.string text) _ rfl i n hi (by simpa using hn)
    simpa using hread

/-- `len` gives the same count as the member. -/
theorem len_of_elements? {machine : Machine} (h : machine.heap.elements? target = some elements) :
    Builtin.len.apply [target] machine = (.ok (.ofCount elements.length), machine) := by
  simp [Builtin.apply, consult, length?_of_elements? h]

/-! ## Writes -/

/-- Setting an item changes that list only. -/
theorem items_setItem (heap : Heap) (list other : ListId) (slot : Nat) (value : Value) :
    (heap.setItem list slot value).items other =
      if other = list then (heap.items other).setIfInBounds slot value else heap.items other := by
  obtain ⟨list⟩ := list
  obtain ⟨other⟩ := other
  simp only [items, setItem, Array.getElem?_modify, ListId.mk.injEq]
  by_cases hsame : list = other
  · subst hsame
    cases heap.lists[list]? <;> simp
  · simp [hsame, Ne.symm hsame]

/-- Setting a property changes that object only. -/
theorem properties_setProperty {object : ObjectId} (h : heap.Has ⟨.objects, object.index⟩)
    (other : ObjectId) (name : String) (value : Value) :
    (heap.setProperty object name value).properties other =
      if other = object then (heap.properties other).insert name value
      else heap.properties other := by
  obtain ⟨object⟩ := object
  obtain ⟨other⟩ := other
  simp only [properties, setProperty, Array.getElem?_modify, ObjectId.mk.injEq]
  by_cases hsame : object = other
  · subst hsame
    simp [Array.getElem?_eq_getElem (show object < heap.objects.size from h)]
  · simp [hsame, Ne.symm hsame]

/-- The value is read under the key of the target, and whatever else is read from either heap, by
index or as a member, is the same. -/
structure ReadsBack (before after : Heap) (target key value : Value) : Prop where
  written : after.getIndex target key = .ok value
  getIndex_eq : ∀ other otherKey, (other = target → otherKey ≠ key) →
    after.getIndex other otherKey = before.getIndex other otherKey
  getMember_eq : ∀ other member, (other = target → .string member ≠ key) →
    after.getMember other member = before.getMember other member

section

variable {other : Heap} (hitems : ∀ list, target = .list list → other.items list = heap.items list)
  (hproperties : ∀ object, target = .object object →
    other.properties object = heap.properties object)

include hitems hproperties

/-- The same elements have the same items. -/
theorem getIndex_congr (key : Value) : other.getIndex target key = heap.getIndex target key := by
  cases target with
  | list list => cases key <;> simp [getIndex, hitems list rfl]
  | object object => cases key <;> simp [getIndex, hproperties object rfl]
  | string text => cases key <;> rfl
  | _ => rfl

/-- The same elements have the same members. -/
theorem getMember_congr (member : String) :
    other.getMember target member = heap.getMember target member := by
  cases target with
  | list list => simp [getMember, hitems list rfl]
  | object object => simp [getMember, hproperties object rfl]
  | _ => rfl

end

/-- An item that is set is read back. -/
theorem readsBack_setItem {list : ListId} {i : Int64} {slot : Nat}
    (hslot : position? i (heap.items list).size = some slot) :
    heap.ReadsBack (heap.setItem list slot value) (.list list) (.int i) value := by
  obtain ⟨hi, hlt⟩ := position?_eq_some_iff.mp hslot
  have hitems {other : Value} (hother : other ≠ .list list) (id : ListId) (h : other = .list id) :
      (heap.setItem list slot value).items id = heap.items id := by
    rw [items_setItem, if_neg]
    rintro rfl
    exact hother h
  constructor
  · simp [getIndex, items_setItem, hslot, hlt, pure, Except.pure]
  · intro other otherKey hother
    by_cases hsame : other = .list list
    · subst hsame
      cases otherKey with
      | int j =>
        simp only [getIndex, items_setItem, if_true, Array.size_setIfInBounds]
        cases hposition : position? j (heap.items list).size with
        | none => rfl
        | some position =>
          have hslots : slot ≠ position := by
            rintro rfl
            have hj := (position?_eq_some_iff.mp hposition).1
            exact hother rfl (congrArg Value.int (Int64.toInt_inj.mp (hj.trans hi.symm)))
          simp only [Option.bind_some, Array.getElem?_setIfInBounds_ne hslots]
      | _ => rfl
    · exact getIndex_congr (hitems hsame) (fun _ _ => rfl) otherKey
  · intro other member _
    by_cases hsame : other = .list list
    · subst hsame
      simp [getMember, items_setItem]
    · exact getMember_congr (hitems hsame) (fun _ _ => rfl) member

/-- A property that is set is read back. -/
theorem readsBack_setProperty {object : ObjectId} (h : heap.Has ⟨.objects, object.index⟩)
    (name : String) :
    heap.ReadsBack (heap.setProperty object name value) (.object object) (.string name) value := by
  have hproperties {other : Value} (hother : other ≠ .object object) (id : ObjectId)
      (hid : other = .object id) :
      (heap.setProperty object name value).properties id = heap.properties id := by
    rw [properties_setProperty h, if_neg]
    rintro rfl
    exact hother hid
  have hget {key : String} (hkey : key ≠ name) :
      ((heap.setProperty object name value).properties object).get? key =
        (heap.properties object).get? key := by
    rw [properties_setProperty h, if_pos rfl, Dictionary.get?_insert, if_neg hkey]
  constructor
  · simp [getIndex, properties_setProperty h, Dictionary.get?_insert, pure, Except.pure]
  · intro other otherKey hother
    by_cases hsame : other = .object object
    · subst hsame
      cases otherKey with
      | string key =>
        have hkey : key ≠ name := fun h => hother rfl (congrArg Value.string h)
        simp only [getIndex, hget hkey]
      | _ => rfl
    · exact getIndex_congr (by intros; rfl) (hproperties hsame) otherKey
  · intro other member hother
    by_cases hsame : other = .object object
    · subst hsame
      have hmember : member ≠ name := fun h => hother rfl (congrArg Value.string h)
      simp only [getMember, hget hmember]
    · exact getMember_congr (by intros; rfl) (hproperties hsame) member

/-- A write that succeeds is read back if the object it is a part of exists. -/
theorem readsBack_of_setIndex (h : heap.setIndex target key value = .ok after)
    (hobject : ∀ object, target = .object object → heap.Has ⟨.objects, object.index⟩) :
    heap.ReadsBack after target key value := by
  rcases setIndex_eq_ok_iff.mp h with
    ⟨list, i, slot, rfl, rfl, hslot, rfl⟩ | ⟨object, name, rfl, rfl, rfl⟩
  · exact readsBack_setItem hslot
  · exact readsBack_setProperty (hobject object rfl) name

/-- Setting an index makes no places. -/
theorem has_of_setIndex (h : heap.setIndex target key value = .ok after) {place : Place} :
    after.Has place ↔ heap.Has place := by
  rcases setIndex_eq_ok_iff.mp h with
    ⟨list, i, slot, -, -, -, rfl⟩ | ⟨object, name, -, -, rfl⟩
  · exact (heap.writes_setItem list slot value).has_iff
  · exact (heap.writes_setProperty object name value).has_iff

/-- Setting an index writes one item. -/
theorem writes_of_setIndex_list {list : ListId} {i : Int64}
    (h : heap.setIndex (.list list) (.int i) value = .ok after) :
    heap.Writes after ⟨.lists, list.index⟩ (.setItem i.toInt.toNat value) := by
  rcases setIndex_eq_ok_iff.mp h with
    ⟨list, i, slot, hlist, hi, hslot, rfl⟩ | ⟨object, name, hlist, -, -⟩
  · cases hlist
    cases hi
    rw [(position?_eq_some_iff.mp hslot).1]
    exact heap.writes_setItem list slot value
  · cases hlist

/-- A list is set inside its bounds only. -/
theorem exists_setIndex_list_iff {list : ListId} {i : Int64} :
    (∃ after, heap.setIndex (.list list) (.int i) value = .ok after) ↔
      0 ≤ i.toInt ∧ i.toInt < (heap.items list).size := by
  rw [← not_iff_not, ← position?_eq_none_iff]
  cases hposition : position? i (heap.items list).size with
  | none => simp [setIndex, hposition]
  | some slot => simp [setIndex, hposition, pure, Except.pure]

end Heap

/-! ## Operations that write -/

section

variable {depth : Nat} {scope : ScopeId} {object index value : Operation}
  {container key new : Value} {machine between : Machine} {fault : Fault}

/-- Operands in a row were evaluated in turn. -/
theorem evaluateAll_cons_eq_ok {operation : Operation} {rest : List Operation} {first : Value}
    {later : List Value}
    (h : evaluateAll depth scope (operation :: rest) machine = (.ok (first :: later), between)) :
    ∃ middle, evaluate depth scope operation machine = (.ok first, middle) ∧
      evaluateAll depth scope rest middle = (.ok later, between) := by
  rw [evaluateAll] at h
  obtain ⟨value, middle, hvalue, h⟩ := bind_apply_eq_ok.mp h
  obtain ⟨values, last, hvalues, h⟩ := bind_apply_eq_ok.mp h
  cases h
  exact ⟨middle, hvalue, hvalues⟩

/-- No operands change nothing. -/
theorem evaluateAll_nil_eq_ok {values : List Value}
    (h : evaluateAll depth scope [] machine = (.ok values, between)) : machine = between := by
  rw [evaluateAll] at h
  cases h
  rfl

/-- Writing an element fails with the machine as it is once the operands have been evaluated. -/
theorem evaluate_setIndex_of_error
    (h : evaluateAll depth scope [object, index, value] machine =
      (.ok [container, key, new], between))
    (hfault : between.heap.setIndex container key new = .error fault) :
    evaluate depth scope (.setIndex object index value) machine = (.error fault, between) := by
  obtain ⟨first, hobject, h⟩ := evaluateAll_cons_eq_ok h
  obtain ⟨second, hindex, h⟩ := evaluateAll_cons_eq_ok h
  obtain ⟨third, hvalue, h⟩ := evaluateAll_cons_eq_ok h
  obtain rfl := evaluateAll_nil_eq_ok h
  simp only [evaluate, bind_apply, hobject, hindex, hvalue, update, hfault]

/-- Writing a member fails with the machine as it is once the operands have been evaluated. -/
theorem evaluate_setMember_of_error {member : String}
    (h : evaluateAll depth scope [object, value] machine = (.ok [container, new], between))
    (hfault : between.heap.setMember container member new = .error fault) :
    evaluate depth scope (.setMember object member value) machine = (.error fault, between) := by
  obtain ⟨first, hobject, h⟩ := evaluateAll_cons_eq_ok h
  obtain ⟨second, hvalue, h⟩ := evaluateAll_cons_eq_ok h
  obtain rfl := evaluateAll_nil_eq_ok h
  simp only [evaluate, bind_apply, hobject, hvalue, update, hfault]

end

/-! ## Agreement -/

/-- The length of a list or string is the same as a member and by the builtin, and a position leads
to an element exactly if it is below the length. The characters of a string, read one by one, make
up the string. An element of a list can be written exactly at such positions; objects have the same
properties as members and by index. What was written is read back through every copy of the value,
and nothing else is changed. A write that fails changes nothing at all. -/
theorem accesses_agree (machine : Machine) :
    -- Lengths and positions of lists and strings.
    (∀ sequence elements, machine.heap.elements? sequence = some elements →
      (∃ length : Int64, length.toInt = min (elements.length : Int) Int64.maxValue.toInt ∧
        Builtin.len.apply [sequence] machine = (.ok (.int length), machine) ∧
        machine.heap.getMember sequence "length" = .ok (.int length)) ∧
      ∀ i : Int64,
        (∀ (n : Nat) (hn : n < elements.length), i.toInt = n →
          machine.heap.getIndex sequence (.int i) = .ok (elements.get ⟨n, hn⟩)) ∧
        (¬ (0 ≤ i.toInt ∧ i.toInt < elements.length) →
          machine.heap.getIndex sequence (.int i) = .ok .null)) ∧
    -- Strings from their characters.
    (∀ text : String, ∃ pieces : List String, pieces.length = text.length ∧
      String.join pieces = text ∧
      ∀ (i : Int64) (n : Nat) (hn : n < pieces.length), i.toInt = n →
        machine.heap.getIndex (.string text) (.int i) = .ok (.string (pieces.get ⟨n, hn⟩))) ∧
    -- Writes to lists, and what is read afterwards.
    (∀ list (i : Int64) value,
      ((∃ after, machine.heap.setIndex (.list list) (.int i) value = .ok after) ↔
        0 ≤ i.toInt ∧ i.toInt < (machine.heap.items list).size) ∧
      ∀ after, machine.heap.setIndex (.list list) (.int i) value = .ok after →
        machine.heap.ReadsBack after (.list list) (.int i) value ∧
        machine.heap.Writes after ⟨.lists, list.index⟩ (.setItem i.toInt.toNat value)) ∧
    -- Properties of objects in both forms.
    (∀ object name,
      machine.heap.getMember (.object object) name =
        machine.heap.getIndex (.object object) (.string name) ∧
      ∀ value, machine.heap.Has ⟨.objects, object.index⟩ → ∃ after,
        machine.heap.setMember (.object object) name value = .ok after ∧
        machine.heap.setIndex (.object object) (.string name) value = .ok after ∧
        after.getMember (.object object) name = .ok value ∧
        machine.heap.ReadsBack after (.object object) (.string name) value ∧
        machine.heap.Writes after ⟨.objects, object.index⟩ (.setEntry name value)) ∧
    -- Writes that fail.
    (∀ depth scope object index value container key new between fault,
      evaluateAll depth scope [object, index, value] machine =
        (.ok [container, key, new], between) →
      between.heap.setIndex container key new = .error fault →
      evaluate depth scope (.setIndex object index value) machine = (.error fault, between)) ∧
    ∀ depth scope object member value container new between fault,
      evaluateAll depth scope [object, value] machine = (.ok [container, new], between) →
      between.heap.setMember container member new = .error fault →
      evaluate depth scope (.setMember object member value) machine = (.error fault, between) := by
  refine ⟨?_, ?_, ?_, ?_, ?_, ?_⟩
  · intro sequence elements h
    obtain ⟨length, hlength, hcount⟩ := exists_ofCount elements.length
    refine ⟨⟨length, hcount, ?_, ?_⟩, fun i => ⟨?_, ?_⟩⟩
    · rw [← hlength]
      exact Heap.len_of_elements? h
    · rw [← hlength]
      exact Heap.getMember_length h
    · exact fun n hn hi => Heap.getIndex_inside h hi hn
    · exact Heap.getIndex_outside h
  · exact Heap.exists_pieces machine.heap
  · intro list i value
    refine ⟨Heap.exists_setIndex_list_iff, fun after h => ⟨?_, Heap.writes_of_setIndex_list h⟩⟩
    exact Heap.readsBack_of_setIndex h nofun
  · intro object name
    refine ⟨rfl, fun value hobject => ⟨_, rfl, rfl, ?_, ?_, ?_⟩⟩
    · exact (Heap.readsBack_setProperty hobject name).written
    · exact Heap.readsBack_setProperty hobject name
    · exact machine.heap.writes_setProperty object name value
  · intros
    apply evaluate_setIndex_of_error <;> assumption
  · intros
    apply evaluate_setMember_of_error <;> assumption

/-- A list that is also the property of an object. -/
def sharedRow : Machine :=
  ⟨⟨#[#[.int 1, .int 2]], #[Dictionary.empty.insert "row" (.list ⟨0⟩)], #[], .empty⟩, [], #[]⟩

/-- A list that two names share. -/
theorem accesses_agree_sharedRow :
    sharedRow.heap.elements? (.list ⟨0⟩) = some [.int 1, .int 2] ∧
    sharedRow.heap.getIndex (.list ⟨0⟩) (.int 1) = .ok (.int 2) ∧
    sharedRow.heap.getIndex (.list ⟨0⟩) (.int (-1)) = .ok .null ∧
    (∃ after, sharedRow.heap.setIndex (.list ⟨0⟩) (.int 1) .null = .ok after ∧
      after.getIndex (.list ⟨0⟩) (.int 1) = .ok .null ∧
      after.getIndex (.list ⟨0⟩) (.int 0) = .ok (.int 1) ∧
      after.getMember (.object ⟨0⟩) "row" = .ok (.list ⟨0⟩)) ∧
    sharedRow.heap.Has ⟨.objects, 0⟩ ∧
    (∃ after, sharedRow.heap.setIndex (.object ⟨0⟩) (.string "length") .null = .ok after ∧
      after.getMember (.object ⟨0⟩) "length" = .ok .null ∧
      after.getMember (.object ⟨0⟩) "row" = .ok (.list ⟨0⟩)) ∧
    evaluate 0 ⟨0⟩ (.setIndex (.literal (.string "ab")) (.literal (.int 0)) (.literal .null))
      sharedRow = (.error (.indexWrite .string .int), sharedRow) ∧
    evaluate 0 ⟨0⟩ (.setMember (.literal .null) "row" (.literal .null)) sharedRow =
      (.error (.memberWrite "row" .null), sharedRow) := by
  obtain ⟨hread, -, hitem, hproperty, hindex, hmember⟩ := accesses_agree sharedRow
  have helements : sharedRow.heap.elements? (.list ⟨0⟩) = some [.int 1, .int 2] := rfl
  have hobject : sharedRow.heap.Has ⟨.objects, 0⟩ := Nat.zero_lt_one
  obtain ⟨-, hsequence⟩ := hread _ _ helements
  refine ⟨helements, (hsequence 1).1 1 (by decide) rfl, (hsequence (-1)).2 (by decide), ?_, hobject,
    ?_, ?_, ?_⟩
  · obtain ⟨after, hafter⟩ := (hitem ⟨0⟩ 1 .null).1.mpr (by decide)
    obtain ⟨hback, -⟩ := (hitem ⟨0⟩ 1 .null).2 after hafter
    refine ⟨after, hafter, hback.written, ?_, hback.getMember_eq _ _ nofun⟩
    exact hback.getIndex_eq _ _ (by simp)
  · obtain ⟨-, hwrite⟩ := hproperty ⟨0⟩ "length"
    obtain ⟨after, -, hafter, hwritten, hback, -⟩ := hwrite .null hobject
    refine ⟨after, hafter, hwritten, ?_⟩
    rw [hback.getMember_eq _ _ (by simp)]
    rfl
  · have hoperands : evaluateAll 0 ⟨0⟩ [.literal (.string "ab"), .literal (.int 0), .literal .null]
        sharedRow = (.ok [.string "ab", .int 0, .null], sharedRow) := by
      simp only [evaluateAll, evaluate]
      rfl
    exact hindex 0 ⟨0⟩ _ _ _ _ _ _ _ _ hoperands rfl
  · have hoperands : evaluateAll 0 ⟨0⟩ [.literal .null, .literal .null] sharedRow =
        (.ok [.null, .null], sharedRow) := by
      simp only [evaluateAll, evaluate]
      rfl
    exact hmember 0 ⟨0⟩ _ _ _ _ _ _ _ hoperands rfl

end TreeScript
