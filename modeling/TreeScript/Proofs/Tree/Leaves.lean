import TreeScript.Proofs.Token.Tiling
import TreeScript.Proofs.Tree.Soundness

/-!
# The leaves of a tree are the tokens of its text

Reading a tree neither drops nor repeats nor moves a token. `Covers` says that the leaves of some
trees are the tokens between two cursors, in order and with their spans. It is put together as
trees are, and every derivation keeps it, one rule at a time. For a whole program the leaves are
thus the stream of the source text, with one more leaf for its end, and the text of the tree is
the source text without its gaps.
-/

namespace TreeScript

variable {c c₁ : Cursor} {tree : Tree}

namespace Tree

mutual

/-- The leaves of a tree in order. -/
def leaves : Tree → List Tree
  | leaf category text span => [leaf category text span]
  | node _ children _ => allLeaves children

/-- The leaves of several trees. -/
def allLeaves : List Tree → List Tree
  | [] => []
  | tree :: rest => leaves tree ++ allLeaves rest

end

/-- Leaves come in the order of the trees. -/
theorem allLeaves_append (trees later : List Tree) :
    allLeaves (trees ++ later) = allLeaves trees ++ allLeaves later := by
  induction trees with
  | nil => rfl
  | cons tree rest ih => rw [List.cons_append, allLeaves, allLeaves, ih, List.append_assoc]

/-- One tree has its own leaves. -/
theorem allLeaves_singleton (tree : Tree) : allLeaves [tree] = tree.leaves := by
  rw [allLeaves, allLeaves, List.append_nil]

/-- Texts come in the order of the trees. -/
theorem joinedTexts_append (trees later : List Tree) :
    joinedTexts (trees ++ later) = joinedTexts trees ++ joinedTexts later := by
  induction trees with
  | nil => simp [joinedTexts]
  | cons tree rest ih =>
    rw [List.cons_append, joinedTexts, joinedTexts, ih, String.append_assoc]

mutual

/-- The text of a tree is the text of its leaves. -/
theorem joinedTexts_leaves (tree : Tree) : joinedTexts tree.leaves = tree.joinedText := by
  cases tree with
  | leaf category text span => simp [leaves, joinedTexts]
  | node rule children span =>
    rw [leaves, joinedText]
    exact joinedTexts_allLeaves children

/-- So is the text of several trees. -/
theorem joinedTexts_allLeaves (trees : List Tree) :
    joinedTexts (allLeaves trees) = joinedTexts trees := by
  cases trees with
  | nil => rfl
  | cons tree rest =>
    rw [allLeaves, joinedTexts_append, joinedTexts_leaves tree, joinedTexts_allLeaves rest,
      joinedTexts]

end

end Tree

open TreeScript.Tree Cursor

/-- A token never becomes the end of the input. -/
theorem Category.ofKind_ne_endOfInput (kind : Kind) : ofKind kind ≠ .endOfInput := by
  unfold ofKind
  split <;> simp

/-- The text of the leaves of some tokens is the texts of the tokens. -/
theorem joinedTexts_tokens (tokens : List Token) :
    joinedTexts (tokens.map Token.leaf) = String.join (tokens.map (·.text)) := by
  induction tokens with
  | nil => rfl
  | cons token rest ih =>
    have htext : token.leaf.joinedText = token.text := by
      unfold Token.leaf
      rw [joinedText]
      exact Category.ofKind_ne_endOfInput token.kind
    rw [List.map_cons, List.map_cons, joinedTexts, htext, ih, String.join_cons]

/-! ## From cursor to cursor -/

namespace Cursor

variable {rule : Rule} {children : List Tree}

/-- The tokens from one cursor to another, as leaves, are those of the trees in order, and both
cursors are in one stream. -/
def Covers (c : Cursor) (trees : List Tree) (c₁ : Cursor) : Prop :=
  c.tokens.map Token.leaf = allLeaves trees ++ c₁.tokens.map Token.leaf ∧
    c₁.endOffset = c.endOffset

/-- Nothing covers no tokens. -/
theorem Covers.nil : c.Covers [] c := ⟨rfl, rfl⟩

/-- Trees that cover tokens, one behind the other. -/
theorem Covers.append {c c₁ c₂ : Cursor} {trees later : List Tree} (h : c.Covers trees c₁)
    (hlater : c₁.Covers later c₂) : c.Covers (trees ++ later) c₂ := by
  obtain ⟨htokens, hend⟩ := h
  obtain ⟨htokens', hend'⟩ := hlater
  constructor
  · rw [htokens, htokens', allLeaves_append, List.append_assoc]
  · rw [hend', hend]

/-- A tree in front of trees. -/
theorem Covers.cons {c c₁ c₂ : Cursor} {rest : List Tree} (h : c.Covers [tree] c₁)
    (hrest : c₁.Covers rest c₂) : c.Covers (tree :: rest) c₂ :=
  h.append hrest

/-- A node covers what its children do. -/
theorem covers_node {span : Span} :
    c.Covers [.node rule children span] c₁ ↔ c.Covers children c₁ := by
  unfold Covers
  rw [allLeaves_singleton, leaves]

/-- So does a node read with an anchor. -/
theorem covers_branch {anchor : Nat} :
    c.Covers [.branch rule children anchor] c₁ ↔ c.Covers children c₁ := by
  rw [branch_eq, covers_node]

/-- So does one with a single child. -/
theorem covers_wrap {child : Tree} : c.Covers [.wrap rule child] c₁ ↔ c.Covers [child] c₁ :=
  covers_branch

/-- So does an expression. -/
theorem covers_expression {parts : List Tree} :
    c.Covers [.expression parts] c₁ ↔ c.Covers parts c₁ :=
  covers_branch

/-- So does an atom. -/
theorem covers_atom {token : Tree} : c.Covers [.atom token] c₁ ↔ c.Covers [token] c₁ := by
  unfold Tree.atom
  split <;> simp only [covers_expression, covers_wrap]

/-- So does an operator of assignment. -/
theorem covers_assignmentOperator {sign : Token} :
    c.Covers [sign.assignmentOperator] c₁ ↔ c.Covers [sign.leaf] c₁ := by
  unfold Token.assignmentOperator
  split
  · rfl
  · exact covers_wrap

/-- A token that is taken is covered. -/
theorem Takes.covers {test : Kind → Bool} {token : Token} (h : c.Takes test token c₁) :
    c.Covers [token.leaf] c₁ := by
  cases h
  exact ⟨rfl, rfl⟩

end Cursor

/-- The phrases that stand for parts of a program. -/
def Phrase.isPart : Phrase → Bool
  | program => false
  | list item | many item | optional item => item.isPart
  | _ => true

/-- Every statement is part of a program. -/
theorem Phrase.isPart_of_mem_statementForms {phrase : Phrase} (h : phrase ∈ statementForms) :
    phrase.isPart = true := by
  revert phrase
  decide

/-- What is read for a part of a program covers the tokens that are taken. -/
theorem Reads.covers {progress : Progress} {phrase : Phrase} {trees : List Tree}
    (h : Reads progress phrase c trees c₁) (hpart : phrase.isPart = true) :
    c.Covers trees c₁ := by
  induction h with
  | oneItem _ _ ih => exact ih hpart
  | moreItems _ hcomma _ ihtree ihrest =>
    exact (ihtree hpart).cons (hcomma.covers.cons (ihrest hpart))
  | none => exact .nil
  | more _ _ _ _ ihtree ihrest => exact (ihtree hpart).cons (ihrest hpart)
  | identifier hname => exact covers_wrap.mpr hname.covers
  | memberName hname => exact covers_wrap.mpr (covers_wrap.mpr hname.covers)
  | memberWord hword => exact covers_wrap.mpr hword.covers
  | assignable _ ih => exact covers_wrap.mpr (ih rfl)
  | noAssignment _ _ ih => exact ih rfl
  | assignment _ hsign _ ihtarget ihvalue =>
    have hoperator := covers_assignmentOperator.mpr hsign.covers
    exact covers_expression.mpr ((ihtarget rfl).cons (hoperator.cons (ihvalue rfl)))
  | operand _ ih => exact ih rfl
  | binary _ hsign _ ihleft ihright =>
    exact covers_expression.mpr ((ihleft rfl).cons (hsign.covers.cons (ihright rfl)))
  | operations _ _ ih => exact ih rfl
  | noPower _ _ ih => exact ih rfl
  | power _ hsign _ ihbase ihexponent =>
    exact covers_expression.mpr ((ihbase rfl).cons (hsign.covers.cons (ihexponent rfl)))
  | unsigned _ _ ih => exact ih rfl
  | signed hsign _ ih => exact covers_expression.mpr (hsign.covers.cons (ih rfl))
  | noStep _ _ ih => exact ih rfl
  | stepped _ hsign ih => exact covers_expression.mpr ((ih rfl).cons hsign.covers)
  | subject _ ih => exact ih rfl
  | member _ hdot _ ihsubject ihname =>
    exact covers_expression.mpr ((ihsubject rfl).cons (hdot.covers.cons (ihname rfl)))
  | index _ hleft _ hright ihsubject ihindex =>
    have hindex := hleft.covers.cons ((ihindex rfl).cons hright.covers)
    exact covers_expression.mpr ((ihsubject rfl).cons hindex)
  | call _ _ ihsubject iharguments =>
    exact covers_expression.mpr ((ihsubject rfl).cons (iharguments rfl))
  | accesses _ _ ih => exact ih rfl
  | atom htoken => exact covers_atom.mpr htoken.covers
  | array hleft _ hright ih =>
    refine covers_expression.mpr (covers_branch.mpr (hleft.covers.cons (.cons ?_ hright.covers)))
    exact covers_branch.mpr (ih rfl)
  | parenthesized hleft _ hright ih =>
    exact covers_expression.mpr (hleft.covers.cons ((ih rfl).cons hright.covers))
  | sequence _ ih => exact covers_branch.mpr (ih rfl)
  | argument _ ih => exact covers_wrap.mpr (ih rfl)
  | noArguments hleft hright => exact covers_branch.mpr (hleft.covers.cons hright.covers)
  | arguments hleft _ _ hright ih =>
    exact covers_branch.mpr ((hleft.covers.cons (ih rfl)).append hright.covers)
  | noElements => exact .nil
  | skippedElement hcomma _ ih => exact hcomma.covers.cons (ih rfl)
  | lastElement _ _ _ _ _ ih => exact covers_wrap.mpr (ih rfl)
  | element _ _ _ _ hcomma _ ihvalue ihrest =>
    exact .cons (covers_wrap.mpr (ihvalue rfl)) (hcomma.covers.cons (ihrest rfl))
  | endMark hsemicolon => exact covers_wrap.mpr hsemicolon.covers
  | noEndMark => exact covers_branch.mpr .nil
  | bareDeclarator _ _ ih => exact covers_wrap.mpr (ih rfl)
  | declarator _ hsign _ ihname ihvalue =>
    exact covers_branch.mpr ((ihname rfl).cons (hsign.covers.cons (ihvalue rfl)))
  | variableStatement hmodifier _ _ ihdeclarators ihending =>
    refine covers_branch.mpr (.cons ?_ (ihending rfl))
    exact covers_branch.mpr (.cons (covers_wrap.mpr hmodifier.covers) (ihdeclarators rfl))
  | emptyStatement hsemicolon => exact covers_wrap.mpr hsemicolon.covers
  | expressionStatement _ _ ihsequence ihending =>
    exact covers_branch.mpr ((ihsequence rfl).cons (ihending rfl))
  | noValue => exact .nil
  | value _ _ _ _ _ ih => exact ih rfl
  | returnStatement hkeyword _ _ ihvalue ihending =>
    exact covers_branch.mpr ((hkeyword.covers.cons (ihvalue rfl)).append (ihending rfl))
  | parameter _ ih => exact covers_wrap.mpr (ih rfl)
  | parameterList _ ih => exact covers_branch.mpr (ih rfl)
  | noParameters => exact .nil
  | parameters _ _ ih => exact ih rfl
  | function hkeyword _ hleft _ hright hopening _ hclosing ihname ihparameters ihelements =>
    have hhead := hkeyword.covers.cons ((ihname rfl).cons hleft.covers)
    refine covers_branch.mpr ((hhead.append (ihparameters rfl)).append (hright.covers.cons ?_))
    exact covers_branch.mpr (hopening.covers.cons ((ihelements rfl).cons hclosing.covers))
  | block hopening _ hclosing ih =>
    refine covers_branch.mpr (hopening.covers.cons (.cons ?_ hclosing.covers))
    exact covers_branch.mpr (ih rfl)
  | ifThen hkeyword hleft _ hright _ _ ihcondition ihconsequence =>
    have hrest := (ihcondition rfl).cons (hright.covers.cons (ihconsequence rfl))
    exact covers_branch.mpr (hkeyword.covers.cons (hleft.covers.cons hrest))
  | ifThenElse hkeyword hleft _ hright _ hotherwise _ ihcondition ihconsequence ihalternative =>
    have helse := (ihconsequence rfl).cons (hotherwise.covers.cons (ihalternative rfl))
    have hrest := (ihcondition rfl).cons (hright.covers.cons helse)
    exact covers_branch.mpr (hkeyword.covers.cons (hleft.covers.cons hrest))
  | loop hkeyword hleft _ hright _ ihcondition ihbody =>
    have hrest := (ihcondition rfl).cons (hright.covers.cons (ihbody rfl))
    exact covers_branch.mpr (hkeyword.covers.cons (hleft.covers.cons hrest))
  | @statement c _ _ _ ih =>
    have hform := Phrase.isPart_of_mem_statementForms (Phrase.ofFirst_mem c.kind?)
    exact covers_wrap.mpr (ih hform)
  | sourceElement _ ih => exact covers_wrap.mpr (ih rfl)
  | sourceElements _ ih => exact covers_branch.mpr (ih rfl)
  | program => cases hpart

/-- The leaves of a program are the tokens ahead, and one more for the end of the input; its text is
theirs. -/
theorem Reads.leaves_program (h : Reads .done .program c [tree] c₁) :
    tree.leaves = c.tokens.map Token.leaf ++ [.leaf .endOfInput "" (Span.point c.endOffset)] ∧
      tree.text = joinedTexts tree.leaves := by
  cases h with
  | @program _ _ elements helements hend =>
    obtain ⟨htokens, hsame⟩ := helements.covers rfl
    rw [allLeaves_singleton, hend, List.map_nil, List.append_nil] at htokens
    constructor
    · rw [branch_eq, leaves, allLeaves, allLeaves_singleton, Cursor.endLeaf, leaves, htokens, hsame]
    · rw [joinedTexts_leaves, branch_eq]
      rfl

/-- The leaves of a source text are its tokens, and one more for its end. -/
theorem Reads.leaves_ofSource {source : String}
    (h : Reads .done .program (Cursor.ofSource source) [tree] c) :
    tree.leaves = (TokenStream.ofSource source).tokens.map Token.leaf ++
      [.leaf .endOfInput "" (Span.point (Source.byteLength source.toList))] := by
  have hend : (Cursor.ofSource source).endOffset = Source.byteLength source.toList :=
    (Scan.endOffset_scanFrom 0 source.toList).trans (Nat.zero_add _)
  rw [← hend]
  exact h.leaves_program.1

/-- Reading a source text into a tree loses nothing. The leaves of the tree are the tokens of the
text in order, with their classes, texts and spans, and after them the end of the input. The text of
a token is what stands under its span. The text is made of these tokens and of gaps of blanks, line
breaks and comments, and the text of the tree is the tokens without the gaps. -/
theorem leaves_of_parse {source : String} {tree : Tree} (h : Tree.parse source = .ok tree) :
    let tokens := (TokenStream.ofSource source).tokens
    tree.leaves = tokens.map Token.leaf ++
        [.leaf .endOfInput "" (Span.point (Source.byteLength source.toList))] ∧
      (∀ token ∈ tokens, token.leaf.category? ≠ some .endOfInput ∧
        Source.slice? source token.span = some token.text.toList) ∧
      Scan.Tiles 0 source.toList tokens ∧ tree.text = String.join (tokens.map (·.text)) := by
  intro tokens
  obtain ⟨c, hreads⟩ := Tree.parse_eq_ok_iff.mp h
  have hleaves := hreads.leaves_ofSource
  have htiles : Scan.Tiles 0 source.toList tokens := Scan.tiles_scanFrom 0 source.toList
  refine ⟨hleaves, ?_, htiles, ?_⟩
  · intro token htoken
    have hslice := htiles.slice? Source.byteLength_nil token htoken
    rw [List.nil_append, String.ofList_toList] at hslice
    exact ⟨fun hcategory => Category.ofKind_ne_endOfInput _ (Option.some.inj hcategory), hslice⟩
  · rw [hreads.leaves_program.2, hleaves, joinedTexts_append]
    change joinedTexts (tokens.map Token.leaf) ++ "" = _
    rw [joinedTexts_tokens, String.append_empty]

/-- The leaves of a conditional. -/
theorem leaves_of_parse_choice :
    ∃ tree, Tree.parse "if ( a ) b = c || d && e ; else ;" = .ok tree ∧
      tree.leaves.length = 15 ∧ tree.text = "if(a)b=c||d&&e;else;" := by
  obtain ⟨tree, c, hreads, -⟩ := Tree.produces_choice.exists_reads
  have hparse := Tree.parse_eq_ok_iff.mpr ⟨c, hreads⟩
  have htexts : (TokenStream.ofSource choice.written).tokens.map (·.text) = choice.leafTexts :=
    (Scan.scanFrom_intercalate (Tree.produces_choice.areSpelled) 0).1
  obtain ⟨hleaves, -, -, htext⟩ := leaves_of_parse hparse
  rw [htexts] at htext
  refine ⟨tree, hparse, ?_, htext⟩
  rw [hleaves, List.length_append, List.length_map, ← List.length_map, htexts]
  rfl

end TreeScript
