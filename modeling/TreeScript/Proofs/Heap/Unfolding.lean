import Mathlib.Data.List.Pairwise
import Mathlib.Data.List.Perm.Basic
import Mathlib.Logic.Relation
import TreeScript.Proofs.Heap.Reading
import TreeScript.Proofs.Text.ByteOrder

/-!
# Values unfolded into trees

The text of a value is the text of a tree, its outline. The outline is what one sees on the way
down from the value: a list or object on the way is opened, with everything in it, unless it is one
of those that enclose it, and then a mark stands for it. What was opened elsewhere is opened again.

An outline exists for every value, since there are only so many cells to enter, and its text is the
text of the value. A value from which no cycle can be reached has an outline without marks, made by
plain recursion on what is inside; a value from which one can be reached has none.
-/

namespace TreeScript

open Relation

/-! ## Outlines -/

/-- What is written of a value, as a tree. -/
inductive Outline where
  /-- The text of a value without parts. -/
  | scalar (text : String)
  | string (content : String)
  | list (items : List Outline)
  | object (entries : List (String × Outline))
  /-- The mark for a list inside itself. -/
  | listMark
  /-- The mark for an object inside itself. -/
  | objectMark
deriving Inhabited

namespace Outline

mutual

/-- The text of an outline. Strings are quoted inside lists and objects, and nowhere else; the names
of properties are not. -/
def write (inside : Bool) : Outline → String
  | scalar text => text
  | string content => if inside then Text.quote content else content
  | list items => "[" ++ ", ".intercalate (writeItems items) ++ "]"
  | object entries => "\x7b" ++ ", ".intercalate (writeEntries entries) ++ "\x7d"
  | listMark => "[...]"
  | objectMark => "\x7b...\x7d"

/-- The texts of the elements of a list. -/
def writeItems : List Outline → List String
  | [] => []
  | item :: rest => write true item :: writeItems rest

/-- The texts of the properties of an object. -/
def writeEntries : List (String × Outline) → List String
  | [] => []
  | (key, item) :: rest => (key ++ ": " ++ write true item) :: writeEntries rest

end

/-- Items are written one by one. -/
theorem writeItems_eq_map (items : List Outline) : writeItems items = items.map (write true) := by
  induction items with
  | nil => rw [writeItems, List.map_nil]
  | cons item rest ih => rw [writeItems, List.map_cons, ih]

/-- Entries are written one by one. -/
theorem writeEntries_eq_map (entries : List (String × Outline)) :
    writeEntries entries = entries.map fun entry => entry.1 ++ ": " ++ write true entry.2 := by
  induction entries with
  | nil => rw [writeEntries, List.map_nil]
  | cons entry rest ih => rw [writeEntries, List.map_cons, ih]

end Outline

/-! ## Entries in order -/

namespace Dictionary

variable {α : Type}
variable {dictionary : Dictionary α}

/-- Keys are in order. -/
theorem ordered_keys (dictionary : Dictionary α) : dictionary.keys.Pairwise (· < ·) :=
  List.pairwise_map.mpr dictionary.ordered

/-- A name is bound to a value if the two are an entry. -/
theorem get?_eq_some_iff {name : String} {value : α} :
    dictionary.get? name = some value ↔ (name, value) ∈ dictionary.entries := by
  obtain ⟨entries, hordered⟩ := dictionary
  change entries.lookup name = some value ↔ (name, value) ∈ entries
  induction entries with
  | nil => simp
  | cons entry rest ih =>
    obtain ⟨hentry, hrest⟩ := List.pairwise_cons.mp hordered
    rw [List.lookup_cons, List.mem_cons]
    by_cases hname : name = entry.1
    · subst hname
      have hlater : (entry.1, value) ∉ rest := fun hmem =>
        String.lt_irrefl _ (hentry (entry.1, value) hmem)
      simp [hlater, Prod.ext_iff, eq_comm]
    · rw [beq_eq_false_iff_ne.mpr hname, ih hrest]
      simp [Prod.ext_iff, hname]

/-- The keys are the names. -/
theorem contains_iff_mem_keys {name : String} :
    dictionary.contains name = true ↔ name ∈ dictionary.keys := by
  simp [contains, Option.isSome_iff_exists, get?_eq_some_iff, keys]

end Dictionary

/-- What is in order is determined by what there is. -/
theorem eq_of_ordered {α : Type} {before : α → α → Prop} {first second : List α}
    (hasymm : ∀ {a b}, before a b → ¬before b a) (hfirst : first.Pairwise before)
    (hsecond : second.Pairwise before) (hmem : ∀ a, a ∈ first ↔ a ∈ second) : first = second := by
  have hne {a b : α} (h : before a b) : a ≠ b := by
    rintro rfl
    exact hasymm h h
  have hperm : first.Perm second :=
    (List.perm_ext_iff_of_nodup (hfirst.imp hne) (hsecond.imp hne)).mpr hmem
  exact hperm.eq_of_pairwise (fun _ _ _ _ h h' => absurd h' (hasymm h)) hfirst hsecond

/-- Entries with the same names, in the same places. -/
theorem forall₂_of_keys {α β : Type} {related : α → β → Prop} {first : List (String × α)}
    {second : List (String × β)} (hkeys : first.map (·.1) = second.map (·.1))
    (h : ∀ key value value', (key, value) ∈ first → (key, value') ∈ second → related value value') :
    List.Forall₂ (fun entry entry' => entry.1 = entry'.1 ∧ related entry.2 entry'.2)
      first second := by
  induction first generalizing second with
  | nil =>
    cases second with
    | nil => exact .nil
    | cons => cases hkeys
  | cons entry rest ih =>
    cases second with
    | nil => cases hkeys
    | cons entry' rest' =>
      obtain ⟨key, value⟩ := entry
      obtain ⟨key', value'⟩ := entry'
      obtain ⟨rfl, hrest⟩ := List.cons.inj hkeys
      refine .cons ⟨rfl, h key value value' (.head _) (.head _)⟩ (ih hrest ?_)
      intro key value value' hmem hmem'
      exact h key value value' (.tail _ hmem) (.tail _ hmem')

/-! ## Unfolding -/

/-- The list or object that a value refers to. -/
def Value.cell? : Value → Option Cell
  | .list id => some (.list id)
  | .object id => some (.object id)
  | _ => none

namespace Heap

variable {object : ObjectId} {list : ListId} {cell : Cell}

/-- The values directly inside a list or an object. -/
def contents (heap : Heap) : Cell → List Value
  | .list list => (heap.items list).toList
  | .object object => (heap.properties object).entries.map (·.2)

/-- The text of a value that has nothing inside and is not a string. -/
def scalarText? (heap : Heap) : Value → Option String
  | .null => some "null"
  | .bool value => some (toString value)
  | .int value => some (toString value.toInt)
  | .float value => some (NumberLayout.value.writeFloat value)
  | .function function => some ((heap.callable? function).elim "[Function]" Callable.render)
  | .string _ | .list _ | .object _ => none

/-- Every property of an object is listed once, in rising order of the bytes of the names, and
nothing else is. -/
structure Lists (heap : Heap) (object : ObjectId) (entries : List (String × Outline)) : Prop where
  ordered : entries.Pairwise fun first second => Text.bytes first.1 < Text.bytes second.1
  complete : ∀ key, key ∈ entries.map (·.1) ↔ (heap.properties object).contains key = true

/-- The outlines of a value inside the cells of a path: what is on the path is marked, and what is
not is opened. -/
inductive Unfolds (heap : Heap) : List Cell → Value → Outline → Prop
  | scalar {path : List Cell} {value : Value} {text : String}
      (htext : heap.scalarText? value = some text) : Unfolds heap path value (.scalar text)
  | string (path : List Cell) (content : String) :
      Unfolds heap path (.string content) (.string content)
  | listMark {path : List Cell} {list : ListId} (hin : .list list ∈ path) :
      Unfolds heap path (.list list) .listMark
  | list {path : List Cell} {list : ListId} {items : List Outline} (hout : .list list ∉ path)
      (hsize : items.length = (heap.items list).size)
      (hitems : ∀ (i : Nat) value item, (heap.items list)[i]? = some value → items[i]? = some item →
        Unfolds heap (.list list :: path) value item) :
      Unfolds heap path (.list list) (.list items)
  | objectMark {path : List Cell} {object : ObjectId} (hin : .object object ∈ path) :
      Unfolds heap path (.object object) .objectMark
  | object {path : List Cell} {object : ObjectId} {entries : List (String × Outline)}
      (hout : .object object ∉ path) (hlists : heap.Lists object entries)
      (hentries : ∀ key value item, (heap.properties object).get? key = some value →
        (key, item) ∈ entries → Unfolds heap (.object object :: path) value item) :
      Unfolds heap path (.object object) (.object entries)

/-- The outline of a value by plain recursion on what is inside, without a path and without
marks. -/
inductive Expands (heap : Heap) : Value → Outline → Prop
  | scalar {value : Value} {text : String} (htext : heap.scalarText? value = some text) :
      Expands heap value (.scalar text)
  | string (content : String) : Expands heap (.string content) (.string content)
  | list {list : ListId} {items : List Outline} (hsize : items.length = (heap.items list).size)
      (hitems : ∀ (i : Nat) value item, (heap.items list)[i]? = some value → items[i]? = some item →
        Expands heap value item) :
      Expands heap (.list list) (.list items)
  | object {object : ObjectId} {entries : List (String × Outline)}
      (hlists : heap.Lists object entries)
      (hentries : ∀ key value item, (heap.properties object).get? key = some value →
        (key, item) ∈ entries → Expands heap value item) :
      Expands heap (.object object) (.object entries)

variable {heap : Heap} {path : List Cell} {value : Value} {outline : Outline}

/-- The names listed are those of the dictionary, in its order. -/
theorem Lists.keys_eq {entries : List (String × Outline)} (h : heap.Lists object entries) :
    (heap.properties object).keys = entries.map (·.1) := by
  refine eq_of_ordered String.lt_asymm (Dictionary.ordered_keys _) ?_ fun key => ?_
  · exact List.pairwise_map.mpr (h.ordered.imp Text.bytes_lt_bytes_iff.mp)
  · rw [h.complete, Dictionary.contains_iff_mem_keys]

/-- The dictionary's own entries, each with an outline of its value. -/
theorem lists_map (heap : Heap) (object : ObjectId) (draw : Value → Outline) :
    heap.Lists object ((heap.properties object).entries.map fun entry =>
      (entry.1, draw entry.2)) where
  ordered := List.pairwise_map.mpr
    ((heap.properties object).ordered.imp Text.bytes_lt_bytes_iff.mpr)
  complete key := by
    rw [Dictionary.contains_iff_mem_keys, List.map_map]
    rfl

/-! ## The text of an outline -/

/-- A plain value is written as its text. -/
theorem renderWithin_scalar {text : String} (htext : heap.scalarText? value = some text) :
    heap.renderWithin path value = text := by
  cases value with
  | string | list | object => cases htext
  | function function =>
    rw [scalarText?, Option.some_inj] at htext
    rw [renderWithin, ← htext]
    cases heap.callable? function <;> rfl
  | _ =>
    rw [renderWithin]
    exact Option.some_inj.mp htext

/-- A list around itself is written as dots. -/
theorem renderWithin_list_of_mem (heap : Heap) (hin : .list list ∈ path) :
    heap.renderWithin path (.list list) = "[...]" := by
  rw [renderWithin, dif_pos (List.contains_iff_mem.mpr hin)]

/-- An object around itself is written as dots. -/
theorem renderWithin_object_of_mem (heap : Heap) (hin : .object object ∈ path) :
    heap.renderWithin path (.object object) = "\x7b...\x7d" := by
  rw [renderWithin, dif_pos (List.contains_iff_mem.mpr hin)]

/-- A list is written with its items. -/
theorem renderWithin_list_of_not_mem (heap : Heap) (hout : .list list ∉ path) :
    heap.renderWithin path (.list list) =
      "[" ++ ", ".intercalate ((heap.items list).toList.map
        (nestedText (heap.renderWithin (.list list :: path)))) ++ "]" := by
  rw [renderWithin_list (by simpa using hout), items]
  cases heap.lists[list.index]? <;> rfl

/-- An object is written with its properties. -/
theorem renderWithin_object_of_not_mem (heap : Heap) (hout : .object object ∉ path) :
    heap.renderWithin path (.object object) =
      "\x7b" ++ ", ".intercalate ((heap.properties object).entries.map fun entry =>
        entry.1 ++ ": " ++ nestedText (heap.renderWithin (.object object :: path)) entry.2) ++
          "\x7d" := by
  rw [renderWithin_object (by simpa using hout), properties]
  cases heap.objects[object.index]? <;> rfl

/-- Elements and outlines that are related one by one. -/
theorem forall₂_items {related : Value → Outline → Prop} {values : Array Value}
    {items : List Outline} (hsize : items.length = values.size)
    (h : ∀ (i : Nat) value item, values[i]? = some value → items[i]? = some item →
      related value item) :
    List.Forall₂ related values.toList items := by
  refine List.forall₂_iff_get.mpr ⟨by simpa using hsize.symm, fun i hi hi' => ?_⟩
  refine h i _ _ ?_ (List.getElem?_eq_getElem hi')
  rw [← Array.getElem?_toList]
  exact List.getElem?_eq_getElem hi

/-- The text of a value inside a path is that of its outline, and so it is inside a cell. -/
theorem Unfolds.text_eq (h : heap.Unfolds path value outline) :
    heap.renderWithin path value = outline.write false ∧
      nestedText (heap.renderWithin path) value = outline.write true := by
  induction h with
  | @scalar path value text htext =>
    have htexts : heap.renderWithin path value = text := renderWithin_scalar htext
    cases value with
    | string => cases htext
    | _ => exact ⟨htexts, htexts⟩
  | string path content =>
    rw [renderWithin]
    exact ⟨rfl, rfl⟩
  | listMark hin =>
    have hmark := renderWithin_list_of_mem heap hin
    exact ⟨hmark, hmark⟩
  | @list path list items hout hsize _ ih =>
    have htexts : (heap.items list).toList.map
        (nestedText (heap.renderWithin (.list list :: path))) = Outline.writeItems items := by
      rw [Outline.writeItems_eq_map]
      exact map_eq_of_forall₂ (forall₂_items hsize ih) And.right
    have htext := renderWithin_list_of_not_mem heap hout
    rw [htexts] at htext
    exact ⟨htext, htext⟩
  | objectMark hin =>
    have hmark := renderWithin_object_of_mem heap hin
    exact ⟨hmark, hmark⟩
  | @object path object entries hout hlists _ ih =>
    have htexts : ((heap.properties object).entries.map fun entry => entry.1 ++ ": " ++
        nestedText (heap.renderWithin (.object object :: path)) entry.2) =
          Outline.writeEntries entries := by
      rw [Outline.writeEntries_eq_map]
      have hentries := forall₂_of_keys hlists.keys_eq fun key value item hvalue hitem =>
        ih key value item (Dictionary.get?_eq_some_iff.mpr hvalue) hitem
      refine map_eq_of_forall₂ hentries fun hentry => ?_
      rw [hentry.1, hentry.2.2]
    have htext := renderWithin_object_of_not_mem heap hout
    rw [htexts] at htext
    exact ⟨htext, htext⟩

/-! ## Every value unfolds -/

/-- Items are inside. -/
theorem mem_contents_of_item {i : Nat} (h : (heap.items list)[i]? = some value) :
    value ∈ heap.contents (.list list) := by
  rw [← Array.getElem?_toList] at h
  exact List.mem_of_getElem? h

/-- Properties are inside. -/
theorem mem_contents_of_property {key : String}
    (h : (heap.properties object).get? key = some value) :
    value ∈ heap.contents (.object object) :=
  List.mem_map.mpr ⟨(key, value), Dictionary.get?_eq_some_iff.mp h, rfl⟩

/-- Only the cells of the heap have anything inside. -/
theorem mem_cells_of_mem_contents (h : value ∈ heap.contents cell) : cell ∈ heap.cells := by
  cases cell with
  | list id =>
    cases hitems : heap.lists[id.index]? with
    | none =>
      rw [contents, items, hitems] at h
      cases h
    | some items => exact list_mem_cells hitems
  | object id =>
    cases hproperties : heap.objects[id.index]? with
    | none =>
      rw [contents, properties, hproperties] at h
      cases h
    | some properties => exact object_mem_cells hproperties

/-- What is to be shown of a value inside a path may be assumed of everything inside the value, if
the value is not on the path already: each step inwards leaves fewer cells to enter. -/
theorem induction_inwards (heap : Heap) {motive : List Cell → Value → Prop}
    (hstep : ∀ path value, (∀ cell, value.cell? = some cell → cell ∉ path →
      ∀ inner ∈ heap.contents cell, motive (cell :: path) inner) → motive path value)
    (path : List Cell) (value : Value) : motive path value := by
  induction hcount : heap.unentered path using Nat.strongRecOn generalizing path value with
  | ind count ih =>
    subst hcount
    refine hstep path value fun cell _ hout inner hinner => ?_
    have hfewer := unentered_cons_lt (mem_cells_of_mem_contents hinner) (by simpa using hout)
    exact ih _ hfewer (cell :: path) inner rfl

/-- Inside any path a value has an outline. -/
theorem exists_unfolds (heap : Heap) (path : List Cell) (value : Value) :
    ∃ outline, heap.Unfolds path value outline := by
  induction path, value using heap.induction_inwards with
  | hstep path value ih =>
    cases value with
    | string content => exact ⟨_, .string path content⟩
    | list list =>
      by_cases hin : .list list ∈ path
      · exact ⟨_, .listMark hin⟩
      · choose! draw hdraw using ih _ rfl hin
        refine ⟨.list ((heap.items list).toList.map draw), .list hin (by simp) ?_⟩
        intro i inner item hvalue hitem
        rw [List.getElem?_map, Array.getElem?_toList, hvalue, Option.map_some,
          Option.some_inj] at hitem
        exact hitem ▸ hdraw inner (mem_contents_of_item hvalue)
    | object object =>
      by_cases hin : .object object ∈ path
      · exact ⟨_, .objectMark hin⟩
      · choose! draw hdraw using ih _ rfl hin
        refine ⟨_, .object hin (heap.lists_map object draw) ?_⟩
        intro key inner item hvalue hitem
        have hinner := mem_contents_of_property hvalue
        obtain ⟨entry, hentry, hsame⟩ := List.mem_map.mp hitem
        obtain ⟨rfl, rfl⟩ := Prod.mk.inj hsame
        rw [Dictionary.get?_eq_some_iff.mpr hentry, Option.some_inj] at hvalue
        exact hvalue ▸ hdraw entry.2 (hvalue ▸ hinner)
    | _ => exact ⟨_, .scalar rfl⟩

/-! ## Cycles -/

/-- One cell is directly inside another. -/
def Encloses (heap : Heap) (outer inner : Cell) : Prop :=
  ∃ value ∈ heap.contents outer, value.cell? = some inner

/-- Nothing inside a value, however deep, is inside itself. -/
def Acyclic (heap : Heap) (value : Value) : Prop :=
  ∀ outer inner, value.cell? = some outer → ReflTransGen heap.Encloses outer inner →
    ¬TransGen heap.Encloses inner inner

/-- What is inside has no cycle either. -/
theorem Acyclic.inside {inner : Value} (h : heap.Acyclic value) (hcell : value.cell? = some cell)
    (hinner : inner ∈ heap.contents cell) :
    heap.Acyclic inner := by
  intro outer deeper houter hreach
  exact h cell deeper hcell (.head ⟨inner, hinner, houter⟩ hreach)

/-- A value is free of cycles if everything directly inside it is. -/
theorem acyclic_of_contents (hcell : value.cell? = some cell)
    (h : ∀ inner ∈ heap.contents cell, heap.Acyclic inner) : heap.Acyclic value := by
  intro outer deeper houter hreach
  obtain rfl : cell = outer := Option.some_inj.mp (hcell.symm.trans houter)
  rcases ReflTransGen.cases_head hreach with rfl | ⟨next, ⟨inner, hinner, hnext⟩, hrest⟩
  · intro hcycle
    obtain ⟨next, ⟨inner, hinner, hnext⟩, hback⟩ := TransGen.head'_iff.mp hcycle
    exact h inner hinner next cell hnext hback hcycle
  · exact h inner hinner next deeper hnext hrest

/-- The cells of a path enclose a value. -/
def Around (heap : Heap) (path : List Cell) (value : Value) : Prop :=
  ∀ outer ∈ path, ∀ cell, value.cell? = some cell → TransGen heap.Encloses outer cell

/-- What is inside has one more around it. -/
theorem Around.inside {inner : Value} (h : heap.Around path value) (hcell : value.cell? = some cell)
    (hinner : inner ∈ heap.contents cell) :
    heap.Around (cell :: path) inner := by
  intro outer houter deeper hdeeper
  have hstep : heap.Encloses cell deeper := ⟨inner, hinner, hdeeper⟩
  rcases List.mem_cons.mp houter with rfl | houter
  · exact .single hstep
  · exact .tail (h outer houter cell hcell) hstep

/-- What is free of cycles is not on a path around it. -/
theorem Around.not_mem (h : heap.Around path value) (hacyclic : heap.Acyclic value)
    (hcell : value.cell? = some cell) : cell ∉ path := fun hmem =>
  hacyclic cell cell hcell .refl (h cell hmem cell hcell)

/-- Where there is no cycle, nothing is marked. -/
theorem Unfolds.expands (h : heap.Unfolds path value outline) (hacyclic : heap.Acyclic value)
    (haround : heap.Around path value) : heap.Expands value outline := by
  induction h with
  | scalar htext => exact .scalar htext
  | string path content => exact .string content
  | listMark hin => exact absurd hin (haround.not_mem hacyclic rfl)
  | list hout hsize _ ih =>
    refine .list hsize fun i value item hvalue hitem => ?_
    have hinner := mem_contents_of_item hvalue
    exact ih i value item hvalue hitem (hacyclic.inside rfl hinner) (haround.inside rfl hinner)
  | objectMark hin => exact absurd hin (haround.not_mem hacyclic rfl)
  | object hout hlists _ ih =>
    refine .object hlists fun key value item hvalue hitem => ?_
    have hinner := mem_contents_of_property hvalue
    exact ih key value item hvalue hitem (hacyclic.inside rfl hinner) (haround.inside rfl hinner)

/-- Plain recursion comes to an end only where there is no cycle. -/
theorem Expands.acyclic (h : heap.Expands value outline) : heap.Acyclic value := by
  induction h with
  | @scalar value text htext =>
    intro outer inner houter
    cases value with
    | list | object => cases htext
    | _ => cases houter
  | string content =>
    intro outer inner houter
    cases houter
  | @list list items hsize _ ih =>
    refine acyclic_of_contents rfl fun inner hinner => ?_
    obtain ⟨i, hfound⟩ := List.getElem?_of_mem hinner
    have hvalue : (heap.items list)[i]? = some inner := Array.getElem?_toList ▸ hfound
    obtain ⟨hi, -⟩ := Array.getElem?_eq_some_iff.mp hvalue
    exact ih i inner _ hvalue (List.getElem?_eq_getElem (hsize ▸ hi))
  | @object object entries hlists _ ih =>
    refine acyclic_of_contents rfl fun inner hinner => ?_
    obtain ⟨⟨key, value⟩, hentry, rfl⟩ := List.mem_map.mp hinner
    have hkey : key ∈ entries.map (·.1) := hlists.keys_eq ▸ List.mem_map_of_mem hentry
    obtain ⟨⟨key', item⟩, hitem, rfl⟩ := List.mem_map.mp hkey
    exact ih key' value item (Dictionary.get?_eq_some_iff.mpr hentry) hitem

/-- What plain recursion gives is the outline inside any path around the value. -/
theorem Expands.unfolds (h : heap.Expands value outline) (haround : heap.Around path value) :
    heap.Unfolds path value outline := by
  have hacyclic := h.acyclic
  induction h generalizing path with
  | scalar htext => exact .scalar htext
  | string content => exact .string path content
  | list hsize _ ih =>
    refine .list (haround.not_mem hacyclic rfl) hsize fun i value item hvalue hitem => ?_
    have hinner := mem_contents_of_item hvalue
    exact ih i value item hvalue hitem (haround.inside rfl hinner) (hacyclic.inside rfl hinner)
  | object hlists _ ih =>
    refine .object (haround.not_mem hacyclic rfl) hlists fun key value item hvalue hitem => ?_
    have hinner := mem_contents_of_property hvalue
    exact ih key value item hvalue hitem (haround.inside rfl hinner) (hacyclic.inside rfl hinner)

end Heap

end TreeScript
