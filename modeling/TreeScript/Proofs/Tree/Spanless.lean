import TreeScript.Tree

/-!
# Trees without their spans

Two trees that differ only in their spans are equal once every span is put at the beginning of the
text. Rules, categories, texts and the number and order of children stay.
-/

namespace TreeScript.Tree

mutual

/-- The tree with every span at the beginning of the text. -/
def withoutSpans : Tree → Tree
  | leaf category text _ => leaf category text (Span.point 0)
  | node rule children _ => node rule (allWithoutSpans children) (Span.point 0)

/-- Several trees without their spans. -/
def allWithoutSpans : List Tree → List Tree
  | [] => []
  | tree :: rest => withoutSpans tree :: allWithoutSpans rest

end

attribute [simp] withoutSpans allWithoutSpans

/-- Spans are forgotten tree by tree. -/
@[simp] theorem allWithoutSpans_append (trees later : List Tree) :
    allWithoutSpans (trees ++ later) = allWithoutSpans trees ++ allWithoutSpans later := by
  induction trees with
  | nil => rfl
  | cons tree rest ih => simp [ih]

variable (tree : Tree)

/-- The rule of a node is kept. -/
@[simp] theorem rule?_withoutSpans : tree.withoutSpans.rule? = tree.rule? := by
  cases tree <;> rfl

/-- The category of a leaf is kept. -/
@[simp] theorem category?_withoutSpans : tree.withoutSpans.category? = tree.category? := by
  cases tree <;> rfl

/-- Leaves stay leaves. -/
@[simp] theorem isLeaf_withoutSpans : tree.withoutSpans.isLeaf = tree.isLeaf := by
  cases tree <;> rfl

/-- All spans are empty and at the beginning. -/
@[simp] theorem span_withoutSpans : tree.withoutSpans.span = Span.point 0 := by
  cases tree <;> rfl

/-- The children of a node lose their spans too. -/
@[simp] theorem children_withoutSpans :
    tree.withoutSpans.children = allWithoutSpans tree.children := by
  cases tree <;> rfl

/-- The list is mapped. -/
theorem allWithoutSpans_eq_map (trees : List Tree) :
    allWithoutSpans trees = trees.map withoutSpans := by
  induction trees with
  | nil => rfl
  | cons tree rest ih => rw [allWithoutSpans, List.map_cons, ih]

/-- No tree is lost. -/
@[simp] theorem length_allWithoutSpans (trees : List Tree) :
    (allWithoutSpans trees).length = trees.length := by
  rw [allWithoutSpans_eq_map, List.length_map]

mutual

/-- The texts of the leaves are kept. -/
theorem joinedText_withoutSpans (tree : Tree) : tree.withoutSpans.joinedText = tree.joinedText := by
  cases tree with
  | leaf category text span => cases category <;> rfl
  | node rule children span => exact joinedTexts_allWithoutSpans children

/-- The texts of all leaves are kept. -/
theorem joinedTexts_allWithoutSpans (trees : List Tree) :
    joinedTexts (allWithoutSpans trees) = joinedTexts trees := by
  cases trees with
  | nil => rfl
  | cons tree rest =>
    rw [allWithoutSpans, joinedTexts, joinedTexts, joinedText_withoutSpans tree,
      joinedTexts_allWithoutSpans rest]

end

/-- The text of a tree is kept. -/
@[simp] theorem text_withoutSpans : tree.withoutSpans.text = tree.text := by
  cases tree with
  | leaf category text span => rfl
  | node rule children span => exact joinedTexts_allWithoutSpans children

end TreeScript.Tree
