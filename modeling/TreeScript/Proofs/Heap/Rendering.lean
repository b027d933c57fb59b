import TreeScript.Proofs.Heap.Unfolding

/-!
# What the text of a value is

The text of a value is that of its outline. Three more views of it stand here. It does not depend on
how the properties of an object came to be, only on the last value that each was given. Where there
is no cycle, plain recursion finds it. And a printer finds it that keeps no path: it holds every
list and object while it writes what is inside, gives it up after, and marks those it finds held.
-/

namespace TreeScript

/-! ## Properties set in any order -/

namespace Dictionary

variable {α : Type}

/-- Dictionaries with the same bindings are equal. -/
theorem ext_get? {first second : Dictionary α}
    (h : ∀ name, first.get? name = second.get? name) : first = second := by
  have hentries : first.entries = second.entries := by
    refine eq_of_ordered String.lt_asymm first.ordered second.ordered ?_
    rintro ⟨name, value⟩
    rw [← get?_eq_some_iff, h, get?_eq_some_iff]
  cases first
  cases second
  cases hentries
  rfl

/-- Bind names one after the other. -/
def insertAll (dictionary : Dictionary α) (entries : List (String × α)) : Dictionary α :=
  entries.foldl (fun dictionary entry => dictionary.insert entry.1 entry.2) dictionary

/-- A name has the last value that it was given, or else the one that it had. -/
theorem get?_insertAll (dictionary : Dictionary α) (entries : List (String × α)) (name : String) :
    (dictionary.insertAll entries).get? name =
      (entries.reverse.lookup name).or (dictionary.get? name) := by
  induction entries generalizing dictionary with
  | nil => rfl
  | cons entry rest ih =>
    rw [insertAll, List.foldl_cons, ← insertAll, ih, get?_insert, List.reverse_cons,
      List.lookup_append, Option.or_assoc]
    by_cases hname : name = entry.1
    · rw [if_pos hname, List.lookup_cons, beq_iff_eq.mpr hname, Option.some_or]
    · rw [if_neg hname, List.lookup_cons, beq_eq_false_iff_ne.mpr hname, List.lookup_nil,
        Option.none_or]

end Dictionary

namespace Heap

/-- Write properties of an object one after the other. -/
def setProperties (heap : Heap) (object : ObjectId) (entries : List (String × Value)) : Heap :=
  entries.foldl (fun heap entry => heap.setProperty object entry.1 entry.2) heap

/-- Properties set in a row are inserted in a row. -/
theorem setProperties_eq (heap : Heap) (object : ObjectId) (entries : List (String × Value)) :
    heap.setProperties object entries =
      { heap with objects := heap.objects.modify object.index (·.insertAll entries) } := by
  induction entries generalizing heap with
  | nil =>
    have hsame : heap.objects.modify object.index (·.insertAll []) = heap.objects := by
      refine Array.ext_getElem? fun i => ?_
      rw [Array.getElem?_modify]
      split
      · exact Option.map_id' ..
      · rfl
    rw [hsame]
    rfl
  | cons entry rest ih =>
    rw [setProperties, List.foldl_cons, ← setProperties, ih, setProperty]
    have hsame : (heap.objects.modify object.index (·.insert entry.1 entry.2)).modify object.index
        (·.insertAll rest) = heap.objects.modify object.index (·.insertAll (entry :: rest)) := by
      refine Array.ext_getElem? fun i => ?_
      simp only [Array.getElem?_modify]
      split
      · rw [Option.map_map]
        rfl
      · rfl
    rw [hsame]

/-- Only the last value of each key counts. -/
theorem setProperties_congr {entries entries' : List (String × Value)}
    (h : ∀ key, entries.reverse.lookup key = entries'.reverse.lookup key) (heap : Heap)
    (object : ObjectId) :
    heap.setProperties object entries = heap.setProperties object entries' := by
  have hsame : (fun properties : Dictionary Value => properties.insertAll entries) =
      fun properties => properties.insertAll entries' := by
    funext properties
    refine Dictionary.ext_get? fun key => ?_
    rw [Dictionary.get?_insertAll, Dictionary.get?_insertAll, h]
  rw [setProperties_eq, setProperties_eq, hsame]

/-! ## Holding what is being written -/

mutual

/-- Writing a value, inside a cell or not, when some cells are held: the text, and what is held
after. A list or object that is held is marked. One that is free is held while everything inside it
is written, in turn, and is then given up. -/
inductive Prints (heap : Heap) : Bool → List Cell → Value → String → List Cell → Prop
  | scalar {inside : Bool} {held : List Cell} {value : Value} {text : String}
      (htext : heap.scalarText? value = some text) : Prints heap inside held value text held
  | string (inside : Bool) (held : List Cell) (content : String) :
      Prints heap inside held (.string content) (if inside then Text.quote content else content)
        held
  | listHeld {inside : Bool} {held : List Cell} {list : ListId} (hheld : .list list ∈ held) :
      Prints heap inside held (.list list) "[...]" held
  | list {inside : Bool} {held held' : List Cell} {list : ListId} {texts : List String}
      (hfree : .list list ∉ held)
      (hinside : PrintsAll heap (.list list :: held) (heap.contents (.list list)) texts held') :
      Prints heap inside held (.list list) ("[" ++ ", ".intercalate texts ++ "]")
        (held'.erase (.list list))
  | objectHeld {inside : Bool} {held : List Cell} {object : ObjectId}
      (hheld : .object object ∈ held) :
      Prints heap inside held (.object object) "\x7b...\x7d" held
  | object {inside : Bool} {held held' : List Cell} {object : ObjectId} {texts : List String}
      (hfree : .object object ∉ held)
      (hinside : PrintsAll heap (.object object :: held) (heap.contents (.object object)) texts
        held') :
      Prints heap inside held (.object object)
        ("\x7b" ++ ", ".intercalate (List.zipWith (fun key text => key ++ ": " ++ text)
          (heap.properties object).keys texts) ++ "\x7d")
        (held'.erase (.object object))

/-- Writing the values inside a cell one after the other. -/
inductive PrintsAll (heap : Heap) : List Cell → List Value → List String → List Cell → Prop
  | nil (held : List Cell) : PrintsAll heap held [] [] held
  | cons {held next held' : List Cell} {value : Value} {text : String} {values : List Value}
      {texts : List String} (hvalue : Prints heap true held value text next)
      (hrest : PrintsAll heap next values texts held') :
      PrintsAll heap held (value :: values) (text :: texts) held'

end

variable {heap : Heap} {inside : Bool} {held held' : List Cell} {value : Value} {text : String}

/-- The text of a value inside the cells of a path, with a string quoted or not. -/
def textWithin (heap : Heap) (inside : Bool) (path : List Cell) : Value → String :=
  if inside then nestedText (heap.renderWithin path) else heap.renderWithin path

/-- Lists and objects have one text. -/
theorem textWithin_of_cell {cell : Cell} (hcell : value.cell? = some cell) (inside : Bool)
    (path : List Cell) : heap.textWithin inside path value = heap.renderWithin path value := by
  cases inside with
  | false => rfl
  | true =>
    cases value with
    | list | object => rfl
    | _ => cases hcell

/-- Plain values have one text. -/
theorem textWithin_scalar (htext : heap.scalarText? value = some text) (inside : Bool)
    (path : List Cell) : heap.textWithin inside path value = text := by
  rw [← renderWithin_scalar htext]
  cases inside with
  | false => rfl
  | true =>
    cases value with
    | string => cases htext
    | _ => rfl

/-- Strings are quoted inside only. -/
theorem textWithin_string (inside : Bool) (path : List Cell) (content : String) :
    heap.textWithin inside path (.string content) =
      if inside then Text.quote content else content := by
  cases inside with
  | false => exact renderWithin.eq_def ..
  | true => rfl

/-- Entries are written key by key. -/
theorem zipWith_keys (properties : Dictionary Value) (write : Value → String) :
    List.zipWith (fun key text => key ++ ": " ++ text) properties.keys
        ((properties.entries.map (·.2)).map write) =
      properties.entries.map fun entry => entry.1 ++ ": " ++ write entry.2 := by
  rw [Dictionary.keys, List.map_map, List.zipWith_map, List.zipWith_self]
  rfl

mutual

/-- What is printed is the text of the value inside what is held, and all else that was taken is
given up. -/
theorem Prints.text_eq : ∀ {inside : Bool} {held held' : List Cell} {value : Value}
    {text : String}, heap.Prints inside held value text held' →
      text = heap.textWithin inside held value ∧ held' = held
  | inside, held, _, _, _, .scalar htext => ⟨(textWithin_scalar htext inside held).symm, rfl⟩
  | _, _, _, _, _, .string inside held content =>
    ⟨(textWithin_string inside held content).symm, rfl⟩
  | inside, held, _, _, _, .listHeld hheld => by
    rw [textWithin_of_cell rfl, renderWithin_list_of_mem heap hheld]
    exact ⟨rfl, rfl⟩
  | inside, held, _, _, _, .list hfree hinside => by
    obtain ⟨rfl, rfl⟩ := hinside.texts_eq
    rw [textWithin_of_cell rfl, renderWithin_list_of_not_mem heap hfree, List.erase_cons_head]
    exact ⟨rfl, rfl⟩
  | inside, held, _, _, _, .objectHeld hheld => by
    rw [textWithin_of_cell rfl, renderWithin_object_of_mem heap hheld]
    exact ⟨rfl, rfl⟩
  | inside, held, _, _, _, .object hfree hinside => by
    obtain ⟨rfl, rfl⟩ := hinside.texts_eq
    rw [textWithin_of_cell rfl, renderWithin_object_of_not_mem heap hfree, List.erase_cons_head,
      contents, zipWith_keys]
    exact ⟨rfl, rfl⟩

/-- Values in a row have their texts. -/
theorem PrintsAll.texts_eq : ∀ {held held' : List Cell} {values : List Value}
    {texts : List String}, heap.PrintsAll held values texts held' →
      texts = values.map (heap.textWithin true held) ∧ held' = held
  | _, _, _, _, .nil _ => ⟨rfl, rfl⟩
  | _, _, _, _, .cons hvalue hrest => by
    obtain ⟨rfl, rfl⟩ := hvalue.text_eq
    obtain ⟨rfl, rfl⟩ := hrest.texts_eq
    exact ⟨rfl, rfl⟩

end

/-- Values in a row are printed one by one. -/
theorem printsAll {values : List Value}
    (h : ∀ value ∈ values, heap.Prints true held value (heap.textWithin true held value) held) :
    heap.PrintsAll held values (values.map (heap.textWithin true held)) held := by
  induction values with
  | nil => exact .nil held
  | cons value rest ih =>
    obtain ⟨hvalue, hrest⟩ := List.forall_mem_cons.mp h
    exact .cons hvalue (ih hrest)

/-- The printer comes to an end, whatever is held. -/
theorem prints (heap : Heap) (inside : Bool) (held : List Cell) (value : Value) :
    heap.Prints inside held value (heap.textWithin inside held value) held := by
  induction held, value using heap.induction_inwards generalizing inside with
  | hstep held value ih =>
    cases value with
    | string content =>
      rw [textWithin_string]
      exact .string inside held content
    | list list =>
      rw [textWithin_of_cell rfl]
      by_cases hheld : .list list ∈ held
      · rw [renderWithin_list_of_mem heap hheld]
        exact .listHeld hheld
      · have hinside := printsAll fun inner hinner => ih _ rfl hheld inner hinner true
        have hlist : heap.Prints inside held (.list list) _ _ := .list hheld hinside
        rw [List.erase_cons_head] at hlist
        rw [renderWithin_list_of_not_mem heap hheld]
        exact hlist
    | object object =>
      rw [textWithin_of_cell rfl]
      by_cases hheld : .object object ∈ held
      · rw [renderWithin_object_of_mem heap hheld]
        exact .objectHeld hheld
      · have hinside := printsAll fun inner hinner => ih _ rfl hheld inner hinner true
        have hobject : heap.Prints inside held (.object object) _ _ := .object hheld hinside
        rw [List.erase_cons_head, contents, zipWith_keys] at hobject
        rw [renderWithin_object_of_not_mem heap hheld]
        exact hobject
    | _ =>
      rw [textWithin_scalar rfl]
      exact .scalar rfl

/-- The text of a value is that of its outline, and there is one. The text is the same in whatever
order properties were set. Plain recursion gives it where there is no cycle, and only there. A
printer that holds what it is writing gives it too, and gives up everything it held. -/
theorem render_draws_outline (heap : Heap) (value : Value) :
    (∃ outline, heap.Unfolds [] value outline) ∧
    (∀ outline, heap.Unfolds [] value outline → heap.render value = outline.write false) ∧
    (heap.Acyclic value ↔ ∃ outline, heap.Expands value outline) ∧
    (∀ outline, heap.Expands value outline → heap.render value = outline.write false) ∧
    (∀ object entries entries',
      (∀ key, entries.reverse.lookup key = entries'.reverse.lookup key) →
        (heap.setProperties object entries).render value =
          (heap.setProperties object entries').render value) ∧
    ∀ text held, heap.Prints false [] value text held ↔ text = heap.render value ∧ held = [] := by
  have haround : heap.Around [] value := by
    intro outer houter
    cases houter
  obtain ⟨outline, houtline⟩ := heap.exists_unfolds [] value
  refine ⟨⟨outline, houtline⟩, fun _ h => h.text_eq.1, ⟨?_, ?_⟩, ?_, ?_, ?_⟩
  · intro hacyclic
    exact ⟨outline, houtline.expands hacyclic haround⟩
  · rintro ⟨_, hexpands⟩
    exact hexpands.acyclic
  · intro _ hexpands
    exact (hexpands.unfolds haround).text_eq.1
  · intro object entries entries' hlast
    rw [setProperties_congr hlast]
  · intro text held
    constructor
    · exact Prints.text_eq
    · rintro ⟨rfl, rfl⟩
      exact heap.prints false [] value

/-- A list that holds itself, an object that holds itself and the list, and twice another list. -/
def tangledHeap : Heap where
  lists := #[#[.list ⟨0⟩, .object ⟨0⟩, .list ⟨1⟩, .list ⟨1⟩], #[.string "a\n"]]
  objects := #[⟨[("a", .object ⟨0⟩), ("b", .list ⟨0⟩)], by decide⟩]
  functions := #[]
  scopes := .empty

def tangledOutline : Outline :=
  .list [.listMark, .object [("a", .objectMark), ("b", .listMark)], .list [.string "a\n"],
    .list [.string "a\n"]]

/-- The list that is held twice has nothing but a string inside. -/
theorem expands_shared : tangledHeap.Expands (.list ⟨1⟩) (.list [.string "a\n"]) := by
  refine .list rfl fun i value item hvalue hitem => ?_
  cases i with
  | zero =>
    cases hvalue
    cases hitem
    exact .string _
  | succ => cases hitem

/-- The tangled heap unfolds so. -/
theorem unfolds_tangledOutline : tangledHeap.Unfolds [] (.list ⟨0⟩) tangledOutline := by
  have hlists : tangledHeap.Lists ⟨0⟩ [("a", .objectMark), ("b", .listMark)] :=
    tangledHeap.lists_map ⟨0⟩ fun value =>
      if value.cell? = some (.object ⟨0⟩) then .objectMark else .listMark
  have hshared : tangledHeap.Unfolds [.list ⟨0⟩] (.list ⟨1⟩) (.list [.string "a\n"]) := by
    refine expands_shared.unfolds fun outer houter cell hcell => ?_
    obtain rfl := List.mem_singleton.mp houter
    cases hcell
    exact .single ⟨.list ⟨1⟩, .tail _ (.tail _ (.head _)), rfl⟩
  refine .list List.not_mem_nil rfl fun i value item hvalue hitem => ?_
  rcases i with _ | _ | _ | _ | i
  · cases hvalue
    cases hitem
    exact .listMark (.head _)
  · cases hvalue
    cases hitem
    refine .object (by decide) hlists fun key value item hvalue hitem => ?_
    simp only [List.mem_cons, Prod.mk.injEq, List.not_mem_nil, or_false] at hitem
    rcases hitem with ⟨rfl, rfl⟩ | ⟨rfl, rfl⟩
    · cases hvalue
      exact .objectMark (.head _)
    · cases hvalue
      exact .listMark (.tail _ (.head _))
  · cases hvalue
    cases hitem
    exact hshared
  · cases hvalue
    cases hitem
    exact hshared
  · cases hitem

/-- A list that is inside itself, and one that stands twice. -/
theorem render_draws_tangledOutline :
    tangledHeap.Unfolds [] (.list ⟨0⟩) tangledOutline ∧
    tangledHeap.render (.list ⟨0⟩) =
      "[[...], \x7ba: \x7b...\x7d, b: [...]\x7d, [\"a\\n\"], [\"a\\n\"]]" ∧
    tangledHeap.Expands (.list ⟨1⟩) (.list [.string "a\n"]) ∧
    tangledHeap.render (.list ⟨1⟩) = "[\"a\\n\"]" ∧
    (tangledHeap.setProperties ⟨0⟩ [("d", .null), ("c", .null)]).render (.object ⟨0⟩) =
      (tangledHeap.setProperties ⟨0⟩ [("c", .null), ("d", .null)]).render (.object ⟨0⟩) ∧
    tangledHeap.Prints false [] (.list ⟨1⟩) "[\"a\\n\"]" [] := by
  obtain ⟨-, htext, -⟩ := render_draws_outline tangledHeap (.list ⟨0⟩)
  obtain ⟨-, -, -, hshared, -, hprints⟩ := render_draws_outline tangledHeap (.list ⟨1⟩)
  obtain ⟨-, -, -, -, horder, -⟩ := render_draws_outline tangledHeap (.object ⟨0⟩)
  have hrender : tangledHeap.render (.list ⟨1⟩) = "[\"a\\n\"]" :=
    (hshared _ expands_shared).trans (by decide)
  refine ⟨unfolds_tangledOutline, (htext _ unfolds_tangledOutline).trans (by decide),
    expands_shared, hrender, horder _ _ _ fun key => ?_, (hprints _ _).mpr ⟨hrender.symm, rfl⟩⟩
  by_cases hkey : key = "c"
  · subst hkey
    rfl
  · simp [List.lookup_cons, beq_eq_false_iff_ne.mpr hkey]

end Heap

end TreeScript
