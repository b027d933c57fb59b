import TreeScript.Proofs.Tree.Derivation
import TreeScript.Proofs.Tree.Spanless
import TreeScript.Tree.Parse

/-!
# Trees written out

A tree is written as the texts of its leaves in order, with single spaces between them. The tokens
of the text that a tree of the grammar is written as are its leaves again, one by one and on one
line. Which of these tokens belong to which part of the tree is a matter of cursors: `Laid` says
that the tokens from one cursor to another are the leaves of some trees, and it splits where the
trees do.
-/

namespace TreeScript

variable {children rest trees later : List Tree} {span : Span} {tree : Tree} {test : Kind → Bool}
  {c c₁ : Cursor}

namespace Tree

/-- A node loses its span and those below. -/
@[simp] theorem withoutSpans_branch (rule : Rule) (children : List Tree) (anchor : Nat) :
    (branch rule children anchor).withoutSpans =
      node rule (allWithoutSpans children) (Span.point 0) := by
  rw [branch_eq, withoutSpans]

/-- A wrapper loses its span. -/
@[simp] theorem withoutSpans_wrap (rule : Rule) (child : Tree) :
    (wrap rule child).withoutSpans = node rule [child.withoutSpans] (Span.point 0) :=
  withoutSpans_branch rule [child] child.span.start

/-- An expression loses its span. -/
@[simp] theorem withoutSpans_expression (parts : List Tree) :
    (expression parts).withoutSpans =
      node .singleExpression (allWithoutSpans parts) (Span.point 0) :=
  withoutSpans_branch .singleExpression parts 0

mutual

/-- The texts of all leaves in order, apart from the end of the input. -/
def leafTexts : Tree → List String
  | leaf .endOfInput _ _ => []
  | leaf _ text _ => [text]
  | node _ children _ => allLeafTexts children

/-- The leaf texts of several trees. -/
def allLeafTexts : List Tree → List String
  | [] => []
  | tree :: rest => leafTexts tree ++ allLeafTexts rest

end

/-- The texts of leaves follow each other. -/
theorem allLeafTexts_append (trees later : List Tree) :
    allLeafTexts (trees ++ later) = allLeafTexts trees ++ allLeafTexts later := by
  induction trees with
  | nil => rfl
  | cons tree rest ih => rw [List.cons_append, allLeafTexts, allLeafTexts, ih, List.append_assoc]

/-- A tree written out, with single spaces between its leaves. -/
def written (tree : Tree) : String := " ".intercalate tree.leafTexts

/-! ## Leaves are tokens -/

/-- Every text is the text of a valid token. -/
def AreSpelled (texts : List String) : Prop :=
  ∀ text ∈ texts, ∃ kind, kind ≠ .invalid ∧ Spells text kind

/-- A node is spelled by its leaves. -/
theorem areSpelled_node {rule : Rule} :
    AreSpelled (node rule children span).leafTexts ↔ AreSpelled (allLeafTexts children) := by
  rw [leafTexts]

/-- A list is spelled tree by tree. -/
theorem areSpelled_cons :
    AreSpelled (allLeafTexts (tree :: rest)) ↔
      AreSpelled tree.leafTexts ∧ AreSpelled (allLeafTexts rest) := by
  rw [allLeafTexts]
  exact List.forall_mem_append

/-- An empty list needs no spelling. -/
theorem areSpelled_nil : AreSpelled (allLeafTexts []) := fun _ h => nomatch h

/-- Two lists are spelled one after the other. -/
theorem areSpelled_append :
    AreSpelled (allLeafTexts (trees ++ later)) ↔
      AreSpelled (allLeafTexts trees) ∧ AreSpelled (allLeafTexts later) := by
  rw [allLeafTexts_append]
  exact List.forall_mem_append

/-- A token is a leaf with its text. -/
theorem leafTexts_ofKind (kind : Kind) (text : String) (span : Span) :
    (leaf (.ofKind kind) text span).leafTexts = [text] := by
  rw [leafTexts]
  unfold Category.ofKind
  split <;> simp

/-- Tokens are spelled. -/
@[grind →] theorem IsToken.areSpelled (h : tree.IsToken test) : AreSpelled tree.leafTexts := by
  cases h with
  | leaf hkind hvalid htext span =>
    rw [leafTexts_ofKind]
    intro text hmem
    rw [List.mem_singleton.mp hmem]
    exact ⟨_, hvalid, htext⟩

/-- The end of the input needs no spelling. -/
@[grind .] theorem areSpelled_endOfInput (text : String) (span : Span) :
    AreSpelled (leaf .endOfInput text span).leafTexts := by
  rw [leafTexts]
  exact fun _ h => nomatch h

end Tree

open TreeScript.Tree

/-- The leaves of the trees of the grammar are valid tokens. -/
theorem Produces.areSpelled {omits : Bool} {phrase : Phrase} (h : Produces omits phrase trees) :
    AreSpelled (allLeafTexts trees) := by
  induction h with
  -- Every production puts together tokens and trees that the induction has covered.
  | _ =>
    simp only [areSpelled_node, areSpelled_cons, areSpelled_append, areSpelled_nil,
      and_true] at * <;> grind

/-! ## Tokens laid out -/

namespace Cursor

variable {c₂ : Cursor}

/-- The tokens from one cursor to another have the given texts, spell their kinds and are on one
line with the token before them. -/
inductive Spelt : Cursor → List String → Cursor → Prop
  | nil {c : Cursor} : Spelt c [] c
  | cons {c c₁ c₂ : Cursor} {token : Token} {texts : List String} :
      c.Takes (· == token.kind) token c₁ → Spells token.text token.kind →
      token.newlineBefore = false → Spelt c₁ texts c₂ → Spelt c (token.text :: texts) c₂

/-- Texts are spelled one after the other. -/
theorem spelt_append {texts later : List String} :
    c.Spelt (texts ++ later) c₂ ↔ ∃ c₁, c.Spelt texts c₁ ∧ c₁.Spelt later c₂ := by
  constructor
  · intro h
    induction texts generalizing c with
    | nil => exact ⟨c, .nil, h⟩
    | cons text texts ih =>
      cases h with
      | cons htakes hspells hline hrest =>
        obtain ⟨c₁, htexts, hlater⟩ := ih hrest
        exact ⟨c₁, .cons htakes hspells hline htexts, hlater⟩
  · rintro ⟨c₁, htexts, hlater⟩
    induction htexts with
    | nil => exact hlater
    | cons htakes hspells hline _ ih => exact .cons htakes hspells hline (ih hlater)

/-- All tokens ahead lie between a cursor and the end of the input. -/
theorem spelt_tokens (c : Cursor)
    (h : ∀ token ∈ c.tokens, token.newlineBefore = false ∧ Spells token.text token.kind) :
    ∃ c₁, c.Spelt (c.tokens.map (·.text)) c₁ ∧ c₁.tokens = [] := by
  obtain ⟨tokens, endOffset, newlineBeforeEnd, previousEnd⟩ := c
  induction tokens generalizing previousEnd with
  | nil => exact ⟨_, .nil, rfl⟩
  | cons token rest ih =>
    obtain ⟨⟨hline, hspells⟩, hrest⟩ := List.forall_mem_cons.mp h
    obtain ⟨c₁, hc₁, hend⟩ := ih token.span.stop hrest
    exact ⟨c₁, .cons (.intro (beq_self_eq_true _)) hspells hline hc₁, hend⟩

/-- Texts of valid tokens, written with single spaces between them, are the texts of the tokens
that are read. -/
theorem spelt_ofSource {texts : List String} (h : AreSpelled texts) :
    ∃ c, (Cursor.ofSource (" ".intercalate texts)).Spelt texts c ∧ c.tokens = [] := by
  obtain ⟨htexts, hclean⟩ := Scan.scanFrom_intercalate h 0
  obtain ⟨c, hc, hend⟩ := spelt_tokens (.ofSource (" ".intercalate texts)) hclean
  have hspelt : (ofSource (" ".intercalate texts)).tokens.map (·.text) = texts := htexts
  rw [hspelt] at hc
  exact ⟨c, hc, hend⟩

/-- The tokens from one cursor to another are the leaves of the trees in order. -/
def Laid (c : Cursor) (trees : List Tree) (c₁ : Cursor) : Prop := c.Spelt (allLeafTexts trees) c₁

/-- No tree is laid out on no token. -/
theorem laid_nil : c.Laid [] c₁ ↔ c = c₁ := by
  constructor
  · rintro ⟨⟩
    rfl
  · rintro rfl
    exact .nil

/-- Two lists are laid out one after the other. -/
theorem laid_append : c.Laid (trees ++ later) c₂ ↔ ∃ c₁, c.Laid trees c₁ ∧ c₁.Laid later c₂ := by
  unfold Laid
  rw [allLeafTexts_append, spelt_append]

/-- A list is laid out tree by tree. -/
theorem laid_cons : c.Laid (tree :: rest) c₂ ↔ ∃ c₁, c.Laid [tree] c₁ ∧ c₁.Laid rest c₂ := by
  rw [← List.singleton_append, laid_append]

/-- A list of two or more is laid out tree by tree. -/
theorem laid_cons_cons {tree next : Tree} :
    c.Laid (tree :: next :: rest) c₂ ↔ ∃ c₁, c.Laid [tree] c₁ ∧ c₁.Laid (next :: rest) c₂ :=
  laid_cons

/-- A node is laid out as its children are. -/
theorem laid_node {rule : Rule} : c.Laid [.node rule children span] c₁ ↔ c.Laid children c₁ := by
  unfold Laid
  rw [allLeafTexts, leafTexts, allLeafTexts, List.append_nil]

/-- The end of the input takes no token. -/
theorem laid_endOfInput {text : String} : c.Laid [.leaf .endOfInput text span] c₁ ↔ c = c₁ :=
  laid_nil

/-- Where leaves are laid out, the first one is on the line of the token before it. -/
theorem Laid.newlineBefore (h : c.Laid trees c₁) (hne : c ≠ c₁) : c.newlineBefore = false := by
  unfold Laid at h
  generalize allLeafTexts trees = texts at h
  cases h with
  | nil => exact absurd rfl hne
  | cons htakes _ hline _ =>
    cases htakes
    exact hline

end Cursor

/-- Where the leaf of a token is laid out, a token of the same kind and text is taken. -/
theorem Tree.IsToken.takes (h : tree.IsToken test) (hlaid : c.Laid [tree] c₁) :
    ∃ token, c.Takes test token c₁ ∧ token.leaf.withoutSpans = tree.withoutSpans := by
  cases h with
  | @leaf kind text hkind hvalid htext span =>
    unfold Cursor.Laid at hlaid
    rw [allLeafTexts, leafTexts_ofKind] at hlaid
    cases hlaid with
    | @cons _ _ _ token _ htakes hspells _ hend =>
      cases hend
      cases htakes
      cases hspells.unique htext
      exact ⟨token, .intro hkind, rfl⟩

/-- A token that is laid out follows no line break. -/
theorem Tree.IsToken.newlineBefore (h : tree.IsToken test) (hlaid : c.Laid [tree] c₁) :
    c.newlineBefore = false := by
  obtain ⟨token, htakes, -⟩ := h.takes hlaid
  apply hlaid.newlineBefore
  rintro rfl
  cases htakes

end TreeScript
