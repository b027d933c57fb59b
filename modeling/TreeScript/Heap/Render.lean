import TreeScript.Decimal.Layout
import TreeScript.Heap
import TreeScript.Text.Quoted

/-!
# The text of values

A list is written with its elements, an object with its properties in rising order of their
names. A list or object that is met again inside itself is written as a marker, so the text of a
value ends even if the heap has cycles: each step inwards leaves fewer cells to enter. Strings
are quoted only inside lists and objects.
-/

namespace TreeScript

/-- A list or an object, as something that has values inside. -/
inductive Cell where
  | list (id : ListId)
  | object (id : ObjectId)
deriving DecidableEq, Repr

namespace Heap

/-- All lists and objects. -/
def cells (heap : Heap) : List Cell :=
  (List.range heap.lists.size).map (fun i => .list ⟨i⟩) ++
    (List.range heap.objects.size).map fun i => .object ⟨i⟩

/-- The number of lists and objects that are not on a path. -/
def unentered (heap : Heap) (path : List Cell) : Nat :=
  (heap.cells.filter fun cell => !path.contains cell).length

/-- Entering a cell leaves fewer to enter. -/
theorem unentered_cons_lt {heap : Heap} {path : List Cell} {cell : Cell} (h : cell ∈ heap.cells)
    (hpath : ¬path.contains cell) : heap.unentered (cell :: path) < heap.unentered path := by
  have hsplit : heap.cells.filter (fun other => !(cell :: path).contains other) =
      (heap.cells.filter fun other => !path.contains other).filter fun other => other != cell := by
    rw [List.filter_filter]
    congr 1
    funext other
    rw [List.contains_cons, Bool.not_or, bne]
  unfold unentered
  rw [hsplit]
  apply List.length_filter_lt_length_iff_exists.mpr
  exact ⟨cell, List.mem_filter.mpr ⟨h, by simpa using hpath⟩, by simp⟩

/-- A list of the heap is one of its cells. -/
theorem list_mem_cells {heap : Heap} {list : ListId} {items : Array Value}
    (h : heap.lists[list.index]? = some items) : Cell.list list ∈ heap.cells := by
  obtain ⟨hlt, _⟩ := Array.getElem?_eq_some_iff.mp h
  exact List.mem_append_left _ (List.mem_map.mpr ⟨list.index, List.mem_range.mpr hlt, rfl⟩)

/-- An object of the heap is one of its cells. -/
theorem object_mem_cells {heap : Heap} {object : ObjectId} {properties : Dictionary Value}
    (h : heap.objects[object.index]? = some properties) : Cell.object object ∈ heap.cells := by
  obtain ⟨hlt, _⟩ := Array.getElem?_eq_some_iff.mp h
  exact List.mem_append_right _ (List.mem_map.mpr ⟨object.index, List.mem_range.mpr hlt, rfl⟩)

/-- A value inside a cell: a string is quoted, and anything else is written as it is. -/
def nestedText (write : Value → String) : Value → String
  | .string value => Text.quote value
  | value => write value

/-- The text of a value inside the cells of a path. An object lists its properties sorted by their
names, which is the order that its dictionary keeps them in. -/
def renderWithin (heap : Heap) (path : List Cell) (value : Value) : String :=
  match value with
  | .null => "null"
  | .bool value => toString value
  | .int value => toString value.toInt
  | .float value => NumberLayout.value.writeFloat value
  | .string value => value
  | .list list =>
    if hpath : path.contains (.list list) then "[...]"
    else
      match hitems : heap.lists[list.index]? with
      | none => "[]"
      | some items =>
        have := unentered_cons_lt (list_mem_cells hitems) hpath
        let inner := nestedText (heap.renderWithin (.list list :: path))
        "[" ++ ", ".intercalate (items.toList.map inner) ++ "]"
  | .object object =>
    if hpath : path.contains (.object object) then "\x7b...\x7d"
    else
      match hproperties : heap.objects[object.index]? with
      | none => "\x7b\x7d"
      | some properties =>
        have := unentered_cons_lt (object_mem_cells hproperties) hpath
        let inner := nestedText (heap.renderWithin (.object object :: path))
        let entries := properties.entries.map fun entry => entry.1 ++ ": " ++ inner entry.2
        "\x7b" ++ ", ".intercalate entries ++ "\x7d"
  | .function function =>
    match heap.callable? function with
    | none => "[Function]"
    | some callable => callable.render
termination_by heap.unentered path

/-- The text of a value. -/
def render (heap : Heap) (value : Value) : String := heap.renderWithin [] value

end Heap

end TreeScript
