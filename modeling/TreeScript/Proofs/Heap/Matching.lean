import Mathlib.Data.List.Forall2
import TreeScript.Proofs.Heap.Place

/-!
# Heaps that are alike

Two heaps are alike along a matching of places if at matched places they hold the same, with
matched places inside. Nothing is asked of places that are not matched, so the heaps may hold
entirely different things there. A matching pairs each place with one place of the same sort.

Heaps that are alike stay so when the same is done to both: when they are written at matched
places, or when they are added to. The places that will be used next are matched in advance, up to
a limit, so that one matching serves for a whole run.
-/

namespace TreeScript

variable {value value' : Value} {larger : Matching} {place : Place}

/-- Places that stand for each other in two heaps. -/
structure Matching where
  Pairs : Place → Place → Prop
  shelf_eq : ∀ {place place' : Place}, Pairs place place' → place'.shelf = place.shelf
  eq_iff : ∀ {place place' next next' : Place}, Pairs place place' → Pairs next next' →
    (place = next ↔ place' = next')

variable {matching : Matching}

/-! ## Values -/

namespace Value

/-- Values that are alike: the same plain data, or identities that stand for each other. -/
inductive Matches (matching : Matching) : Value → Value → Prop
  | plain {value : Value} : value.place? = none → Matches matching value value
  | list {id id' : ListId} : matching.Pairs ⟨.lists, id.index⟩ ⟨.lists, id'.index⟩ →
      Matches matching (.list id) (.list id')
  | object {id id' : ObjectId} : matching.Pairs ⟨.objects, id.index⟩ ⟨.objects, id'.index⟩ →
      Matches matching (.object id) (.object id')
  | function {id id' : FunctionId} :
      matching.Pairs ⟨.functions, id.index⟩ ⟨.functions, id'.index⟩ →
      Matches matching (.function id) (.function id')

/-- A value matches itself if its place does. -/
theorem matches_self (h : ∀ place, value.place? = some place → matching.Pairs place place) :
    value.Matches matching value := by
  cases value with
  | list id => exact .list (h _ rfl)
  | object id => exact .object (h _ rfl)
  | function id => exact .function (h _ rfl)
  | _ => exact .plain rfl

/-- Values that match do so under more pairs. -/
theorem Matches.mono
    (hle : ∀ {place place'}, matching.Pairs place place' → larger.Pairs place place')
    (h : value.Matches matching value') : value.Matches larger value' := by
  cases h with
  | plain hplain => exact .plain hplain
  | list hpair => exact .list (hle hpair)
  | object hpair => exact .object (hle hpair)
  | function hpair => exact .function (hle hpair)

/-- Matching values have paired places. -/
theorem Matches.exists_pair (h : value.Matches matching value')
    (hplace : value.place? = some place) :
    ∃ place', value'.place? = some place' ∧ matching.Pairs place place' := by
  cases h with
  | plain hplain =>
    rw [hplain] at hplace
    cases hplace
  | list hpair | object hpair | function hpair =>
    cases hplace
    exact ⟨_, rfl, hpair⟩

end Value

/-! ## Dictionaries -/

section Relations

variable {α β γ δ : Type} {related : α → β → Prop}
variable {second : Option β}

/-- Related options are there together. -/
theorem isSome_eq_of_rel {first : Option α} (h : Option.Rel related first second) :
    first.isSome = second.isSome := by
  cases h <;> rfl

/-- Related options map to related ones. -/
theorem rel_map {related' : γ → δ → Prop} {f : α → γ} {g : β → δ} {first : Option α}
    (h : Option.Rel related first second)
    (himp : ∀ {item item'}, related item item' → related' (f item) (g item')) :
    Option.Rel related' (first.map f) (second.map g) := by
  cases h with
  | none => exact .none
  | some hitem => exact .some (himp hitem)

/-- Every member of the first of two related lists has a counterpart. -/
theorem exists_of_forall₂ {first : List α} {second : List β}
    (h : List.Forall₂ related first second) {item : α} (hitem : item ∈ first) :
    ∃ item', related item item' := by
  induction h with
  | nil => cases hitem
  | cons hhead _ ih =>
    rcases List.mem_cons.mp hitem with rfl | hrest
    · exact ⟨_, hhead⟩
    · exact ih hrest

end Relations

/-- Entries of the same name with values that are alike. -/
def EntriesMatch (matching : Matching) (entry entry' : String × Value) : Prop :=
  entry.1 = entry'.1 ∧ entry.2.Matches matching entry'.2

namespace Dictionary

/-- Dictionaries of the same names with values that are alike. -/
def Matches (matching : Matching) (dictionary other : Dictionary Value) : Prop :=
  List.Forall₂ (EntriesMatch matching) dictionary.entries other.entries

variable {dictionary other : Dictionary Value} {entries entries' : List (String × Value)}

/-- Names are found with matching values. -/
theorem rel_lookup (h : List.Forall₂ (EntriesMatch matching) entries entries') (name : String) :
    Option.Rel (Value.Matches matching) (entries.lookup name) (entries'.lookup name) := by
  induction h with
  | nil => exact .none
  | @cons entry entry' _ _ hentry _ ih =>
    obtain ⟨key, value⟩ := entry
    obtain ⟨key', value'⟩ := entry'
    obtain ⟨rfl, hvalue⟩ : key = key' ∧ value.Matches matching value' := hentry
    rw [List.lookup_cons, List.lookup_cons]
    cases name == key with
    | true => exact .some hvalue
    | false => exact ih

/-- Entries match when one is inserted on both sides. -/
theorem rel_insertEntry (h : List.Forall₂ (EntriesMatch matching) entries entries') (name : String)
    (hvalue : value.Matches matching value') :
    List.Forall₂ (EntriesMatch matching) (insertEntry name value entries)
      (insertEntry name value' entries') := by
  have hnew : EntriesMatch matching (name, value) (name, value') := ⟨rfl, hvalue⟩
  induction h with
  | nil => exact .cons hnew .nil
  | cons hentry hrest ih =>
    unfold insertEntry
    rw [← hentry.1]
    split
    · exact .cons hnew (.cons hentry hrest)
    · split
      · exact .cons hnew hrest
      · exact .cons hentry ih

namespace Matches

/-- Properties match. -/
theorem get? (h : dictionary.Matches matching other) (name : String) :
    Option.Rel (Value.Matches matching) (dictionary.get? name) (other.get? name) :=
  rel_lookup h name

/-- Matching objects are equally large. -/
theorem size_eq (h : dictionary.Matches matching other) : dictionary.size = other.size :=
  List.Forall₂.length_eq h

/-- So do objects. -/
theorem mono (hle : ∀ {place place'}, matching.Pairs place place' → larger.Pairs place place')
    (h : dictionary.Matches matching other) : dictionary.Matches larger other :=
  h.imp fun _ _ hentry => ⟨hentry.1, hentry.2.mono hle⟩

/-- Matching values are inserted. -/
theorem insert (h : dictionary.Matches matching other) (name : String)
    (hvalue : value.Matches matching value') :
    (dictionary.insert name value).Matches matching (other.insert name value') :=
  rel_insertEntry h name hvalue

/-- All places inside are paired. -/
theorem exists_pair (h : dictionary.Matches matching other)
    (hplace : place ∈ Content.placesOf dictionary) : ∃ place', matching.Pairs place place' := by
  obtain ⟨entry, hentry, hvalue⟩ := List.mem_filterMap.mp hplace
  obtain ⟨entry', hmatch⟩ := exists_of_forall₂ h hentry
  obtain ⟨place', -, hpair⟩ := hmatch.2.exists_pair hvalue
  exact ⟨place', hpair⟩

end Matches

/-- Empty objects match. -/
theorem matches_empty (matching : Matching) : (empty : Dictionary Value).Matches matching empty :=
  .nil

/-- An object matches itself likewise. -/
theorem matches_self (h : ∀ place ∈ Content.placesOf dictionary, matching.Pairs place place) :
    dictionary.Matches matching dictionary := by
  refine List.forall₂_same.mpr fun entry hentry => ⟨rfl, Value.matches_self fun place hplace => ?_⟩
  exact h place (List.mem_filterMap.mpr ⟨entry, hentry, hplace⟩)

end Dictionary

/-! ## What stands at a place -/

namespace Content

/-- Things that are alike. Closures have the same definition, and scopes lie inside scopes that
stand for each other. -/
inductive Matches (matching : Matching) : Content → Content → Prop
  | items {values values' : Array Value} :
      List.Forall₂ (Value.Matches matching) values.toList values'.toList →
      Matches matching (.items values) (.items values')
  | properties {entries entries' : Dictionary Value} : entries.Matches matching entries' →
      Matches matching (.properties entries) (.properties entries')
  | closure {name : String} {parameters : List String} {body : List Operation}
      {scope scope' : ScopeId} : matching.Pairs scope.place scope'.place →
      Matches matching (.callable (.closure name parameters body scope))
        (.callable (.closure name parameters body scope'))
  | builtin (which : Builtin) :
      Matches matching (.callable (.builtin which)) (.callable (.builtin which))
  | frame {bindings bindings' : Dictionary Value} {outer outer' : Option ScopeId} :
      bindings.Matches matching bindings' →
      Option.Rel (fun scope scope' => matching.Pairs scope.place scope'.place) outer outer' →
      Matches matching (.frame ⟨bindings, outer⟩) (.frame ⟨bindings', outer'⟩)

variable {content content' : Content}

/-- Content matches itself if its places are paired with themselves. -/
theorem matches_self (h : ∀ place ∈ content.places, matching.Pairs place place) :
    content.Matches matching content := by
  cases content with
  | items values =>
    refine .items (List.forall₂_same.mpr fun value hvalue => ?_)
    refine Value.matches_self fun place hplace => ?_
    exact h place (List.mem_filterMap.mpr ⟨value, hvalue, hplace⟩)
  | properties entries => exact .properties (Dictionary.matches_self h)
  | callable callable =>
    cases callable with
    | closure name parameters body scope => exact .closure (h _ (List.mem_singleton.mpr rfl))
    | builtin which => exact .builtin which
  | frame frame =>
    obtain ⟨bindings, outer⟩ := frame
    refine .frame (Dictionary.matches_self fun place hplace => ?_) ?_
    · exact h place (List.mem_append_left _ hplace)
    · cases outer with
      | none => exact .none
      | some scope => exact .some (h _ (List.mem_append_right _ (List.mem_singleton.mpr rfl)))

/-- Content that matches does so under more pairs. -/
theorem Matches.mono
    (hle : ∀ {place place'}, matching.Pairs place place' → larger.Pairs place place')
    (h : content.Matches matching content') : content.Matches larger content' := by
  cases h with
  | items hvalues => exact .items (hvalues.imp fun _ _ hvalue => hvalue.mono hle)
  | properties hentries => exact .properties (hentries.mono hle)
  | closure hscope => exact .closure (hle hscope)
  | builtin which => exact .builtin which
  | frame hbindings houter =>
    refine .frame (hbindings.mono hle) ?_
    cases houter with
    | none => exact .none
    | some hscope => exact .some (hle hscope)

/-- Every place that is mentioned is matched. -/
theorem Matches.exists_pair (h : content.Matches matching content')
    (hplace : place ∈ content.places) : ∃ place', matching.Pairs place place' := by
  cases h with
  | items hvalues =>
    obtain ⟨value, hvalue, hsome⟩ := List.mem_filterMap.mp hplace
    obtain ⟨value', hmatch⟩ := exists_of_forall₂ hvalues hvalue
    obtain ⟨place', -, hpair⟩ := hmatch.exists_pair hsome
    exact ⟨place', hpair⟩
  | properties hentries => exact hentries.exists_pair hplace
  | closure hscope =>
    obtain rfl := List.mem_singleton.mp hplace
    exact ⟨_, hscope⟩
  | builtin => cases hplace
  | frame hbindings houter =>
    rcases List.mem_append.mp hplace with hbinding | hscope
    · exact hbindings.exists_pair hbinding
    · cases houter with
      | none => cases hscope
      | some hpair =>
        obtain rfl := List.mem_singleton.mp hscope
        exact ⟨_, hpair⟩

/-- Writing the same element of lists that are alike. -/
theorem Matches.setItem (h : content.Matches matching content') (index : Nat)
    (hvalue : value.Matches matching value') :
    (content.setItem index value).Matches matching (content'.setItem index value') := by
  cases h with
  | items hvalues =>
    refine .items ?_
    rw [Array.toList_setIfInBounds, Array.toList_setIfInBounds]
    refine List.forall₂_iff_get.mpr ⟨by simp [hvalues.length_eq], fun i hi hi' => ?_⟩
    simp only [List.get_eq_getElem, List.getElem_set]
    split
    · exact hvalue
    · exact hvalues.get _ _
  | properties hentries => exact .properties hentries
  | closure hscope => exact .closure hscope
  | builtin which => exact .builtin which
  | frame hbindings houter => exact .frame hbindings houter

/-- Writing under the same name in objects or scopes that are alike. -/
theorem Matches.setEntry (h : content.Matches matching content') (name : String)
    (hvalue : value.Matches matching value') :
    (content.setEntry name value).Matches matching (content'.setEntry name value') := by
  cases h with
  | items hvalues => exact .items hvalues
  | properties hentries => exact .properties (hentries.insert name hvalue)
  | closure hscope => exact .closure hscope
  | builtin which => exact .builtin which
  | frame hbindings houter => exact .frame (hbindings.insert name hvalue) houter

end Content

/-! ## Heaps -/

namespace Heap

/-- Heaps that hold the same at matched places. The places that come next in both are matched, as
far as they lie below a limit. -/
structure Joined (matching : Matching) (limit : Shelf → Nat) (heap other : Heap) : Prop where
  contents : ∀ {place place' : Place}, matching.Pairs place place' →
    Option.Rel (Content.Matches matching) (heap.content place) (other.content place')
  next : ∀ (shelf : Shelf) (offset : Nat), heap.size shelf + offset < limit shelf →
    matching.Pairs ⟨shelf, heap.size shelf + offset⟩ ⟨shelf, other.size shelf + offset⟩

namespace Joined

variable {limit : Shelf → Nat} {heap other after after' : Heap}

/-- Paired places are there or not together. -/
theorem has_iff (h : heap.Joined matching limit other) {place place' : Place}
    (hpair : matching.Pairs place place') : heap.Has place ↔ other.Has place' := by
  rw [Heap.has_iff, Heap.has_iff, ← Option.isSome_iff_exists, ← Option.isSome_iff_exists,
    isSome_eq_of_rel (h.contents hpair)]

/-- What is mentioned at a matched place is matched. -/
theorem exists_pair (h : heap.Joined matching limit other) {place place' next : Place}
    (hpair : matching.Pairs place place') (hrefers : heap.Refers place next) :
    ∃ next', matching.Pairs next next' := by
  obtain ⟨content, hcontent, hmention⟩ := hrefers
  have hcontents := h.contents hpair
  rw [hcontent] at hcontents
  generalize other.content place' = found at hcontents
  cases hcontents with
  | some hmatch => exact hmatch.exists_pair hmention

/-- Writing the same at matched places. -/
theorem write (h : heap.Joined matching limit other) {target target' : Place}
    {change change' : Content → Content} (hwrite : heap.Writes after target change)
    (hwrite' : other.Writes after' target' change') (htarget : matching.Pairs target target')
    (hchange : ∀ {content content' : Content}, content.Matches matching content' →
      (change content).Matches matching (change' content')) :
    after.Joined matching limit after' where
  contents {place place'} hpair := by
    rw [hwrite.content_eq, hwrite'.content_eq]
    have hcontents := h.contents hpair
    by_cases hplace : place = target
    · rw [if_pos hplace, if_pos ((matching.eq_iff hpair htarget).mp hplace)]
      exact rel_map hcontents hchange
    · rw [if_neg hplace, if_neg (mt (matching.eq_iff hpair htarget).mpr hplace)]
      exact hcontents
  next shelf offset hlimit := by
    rw [hwrite.size_eq] at hlimit ⊢
    rw [hwrite'.size_eq]
    exact h.next shelf offset hlimit

/-- The place at the end of a shelf is matched if it lies below the limit. -/
theorem pairs_next (h : heap.Joined matching limit other) {shelf : Shelf}
    (hlimit : heap.size shelf < limit shelf) :
    matching.Pairs ⟨shelf, heap.size shelf⟩ ⟨shelf, other.size shelf⟩ :=
  h.next shelf 0 hlimit

/-- Adding the same to both heaps, below the limit. -/
theorem add (h : heap.Joined matching limit other) {shelf : Shelf} {added added' : Content}
    (hadd : heap.Adds after shelf added) (hadd' : other.Adds after' shelf added')
    (hlimit : heap.size shelf < limit shelf) (hmatch : added.Matches matching added') :
    after.Joined matching limit after' where
  contents {place place'} hpair := by
    rw [hadd.content_eq, hadd'.content_eq]
    have hnew := matching.eq_iff hpair (h.pairs_next hlimit)
    by_cases hplace : place = ⟨shelf, heap.size shelf⟩
    · rw [if_pos hplace, if_pos (hnew.mp hplace)]
      exact .some hmatch
    · rw [if_neg hplace, if_neg (mt hnew.mpr hplace)]
      exact h.contents hpair
  next other offset hbelow := by
    rw [hadd.size_eq] at hbelow ⊢
    rw [hadd'.size_eq]
    by_cases hother : other = shelf
    · rw [if_pos hother] at hbelow ⊢
      rw [if_pos hother, Nat.add_assoc, Nat.add_assoc]
      exact h.next other (1 + offset) (by omega)
    · rw [if_neg hother] at hbelow ⊢
      rw [if_neg hother]
      exact h.next other offset hbelow

end Joined

end Heap

end TreeScript
