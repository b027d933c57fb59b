import TreeScript.Proofs.Tree.Leaves

/-!
# Line breaks

Where a statement lacks its end mark, what comes next is a closing brace, the end of the input or a
token on a new line, and nothing that the statement could have gone on with: the readers of
expressions take in every operator and every access that they find, except that an access is not
read behind a step sign. A step sign behind an operand and the value of a `return` must begin on the
same line.

All of it is about the tokens behind a node, so `Tree.Stands` counts the leaves in front of a node,
and `Tree.Obeys` says what a node demands of the tokens from there on. Derivations keep it, one rule
at a time.
-/

namespace TreeScript

open TreeScript.Tree (allLeaves allLeaves_append allLeaves_singleton branch branch_eq expression
  wrap)
open Cursor

variable {strength tighter : Strength} {progress : Progress}

/-! ## Where expressions stop -/

/-- The last leaf of the tree is a step sign behind its operand. -/
inductive Tree.EndsInStep : Tree → Prop
  | step {operand : Tree} {category : Category} {text : String} {signSpan span : Span} :
      operand.isLeaf = false →
      EndsInStep (.node .singleExpression [operand, .leaf category text signSpan] span)
  | last {rule : Rule} {children : List Tree} {span : Span} {last : Tree} :
      children.getLast? = some last → EndsInStep last → EndsInStep (.node rule children span)

/-- The cursor is at no token that an operation up to a looseness goes on with behind a tree.
Nothing is said of steps, which line breaks keep apart, nor of accesses behind a step. -/
def Cursor.IsPast (c : Cursor) (bound : Nat) (tree : Tree) : Prop :=
  ∀ other : Strength, other.looseness ≤ bound → other ≠ .stepped →
    (other = .chain → ¬ tree.EndsInStep) → c.sees other.accepts = false

namespace Strength

/-- No two strengths are equally loose. -/
theorem looseness_injective : Function.Injective looseness := by
  intro strength other h
  cases strength with
  | level l => cases other with
    | level m => cases l <;> cases m <;> first | rfl | cases h
    | _ => cases l <;> cases h
  | _ => cases other with
    | level m => cases m <;> cases h
    | _ => first | rfl | cases h

/-- The next tighter strength is one less loose. -/
theorem looseness_eq_of_tighter? (h : strength.tighter? = some tighter) :
    strength.looseness = tighter.looseness + 1 := by
  cases strength with
  | level l => cases l <;> cases h <;> rfl
  | _ => cases h <;> rfl

end Strength

namespace Cursor

variable {c : Cursor} {bound : Nat} {tree : Tree} {trees : List Tree}

/-- A reader that goes on with nothing is past what the reader inside it is past, and past its own
operators. -/
theorem IsPast.looser (h : c.IsPast tighter.looseness tree)
    (htighter : strength.tighter? = some tighter)
    (hsees : strength ≠ .stepped → (strength = .chain → ¬ tree.EndsInStep) →
      c.sees strength.accepts = false) :
    c.IsPast strength.looseness tree := by
  intro other hother hstepped hchain
  have hnext := Strength.looseness_eq_of_tighter? htighter
  rw [hnext] at hother
  rcases Nat.le_succ_iff.mp hother with hle | heq
  · exact h other hle hstepped hchain
  · obtain rfl := Strength.looseness_injective (heq.trans hnext.symm)
    exact hsees hstepped hchain

/-- No operation binds as strongly as an operand by itself. -/
theorem isPast_primary (c : Cursor) (tree : Tree) :
    c.IsPast Strength.primary.looseness tree := by
  intro other hother _ _
  obtain rfl : other = .primary := Strength.looseness_injective (Nat.le_zero.mp hother)
  exact Option.any_false

/-- What is past the last part of a node is past the node. -/
theorem IsPast.of_last (h : c.IsPast bound tree) {rule : Rule} {children : List Tree} {span : Span}
    (hlast : children.getLast? = some tree) : c.IsPast bound (.node rule children span) :=
  fun other hother hstepped hchain =>
    h other hother hstepped fun heq hends => hchain heq (.last hlast hends)

/-- The cursor is past one expression of a strength. -/
def IsBehind (c : Cursor) (strength : Strength) (trees : List Tree) : Prop :=
  ∃ tree, trees = [tree] ∧ tree.isLeaf = false ∧ c.IsPast strength.looseness tree

/-- No expression is a leaf. -/
theorem isLeaf_expression (parts : List Tree) : (expression parts).isLeaf = false := by
  rw [Tree.expression_eq]
  rfl

/-- A primary expression has nothing behind it to bind. -/
theorem isBehind_primary (c : Cursor) (parts : List Tree) :
    c.IsBehind .primary [expression parts] :=
  ⟨_, rfl, isLeaf_expression parts, isPast_primary c _⟩

/-- It has nothing either for a looser strength that sees no operator. -/
theorem IsBehind.looser (h : c.IsBehind tighter trees) (htighter : strength.tighter? = some tighter)
    (hsees : c.sees strength.accepts = false) :
    c.IsBehind strength trees := by
  obtain ⟨tree, htree, hnode, hpast⟩ := h
  exact ⟨tree, htree, hnode, hpast.looser htighter fun _ _ => hsees⟩

/-- An expression ends as its last part does. -/
theorem IsBehind.expression {last : Tree} (h : c.IsBehind strength [last]) {parts : List Tree}
    (hlast : parts.getLast? = some last) :
    c.IsBehind strength [Tree.expression parts] := by
  obtain ⟨tree, htree, -, hpast⟩ := h
  cases htree
  refine ⟨_, rfl, isLeaf_expression parts, ?_⟩
  rw [Tree.expression_eq]
  exact hpast.of_last hlast

/-- Whatever follows a step, no reader goes on with an access. -/
theorem IsBehind.step {c' : Cursor} {operand : Tree} (h : c'.IsBehind strength [operand])
    (c : Cursor) (sign : Token) :
    c.IsBehind .stepped [Tree.expression [operand, sign.leaf]] := by
  obtain ⟨tree, htree, hnode, -⟩ := h
  cases htree
  refine ⟨_, rfl, isLeaf_expression _, ?_⟩
  have hends : (Tree.expression [operand, sign.leaf]).EndsInStep := by
    rw [Tree.expression_eq]
    exact .step hnode
  have hchain : c.IsPast Strength.chain.looseness (Tree.expression [operand, sign.leaf]) :=
    (c.isPast_primary _).looser rfl fun _ hnot => absurd hends (hnot rfl)
  exact hchain.looser rfl fun hne => absurd rfl hne

end Cursor

/-- What is known when an expression, or several with commas between them, have been read. -/
def Phrase.EndsPast : Phrase → Progress → List Tree → Cursor → Prop
  | .expression strength, .begun, trees, c => c.IsBehind strength.inner trees
  | .expression strength, .done, trees, c => c.IsBehind strength trees
  | .list item, _, trees, c =>
    ∃ last, trees.getLast? = some last ∧ item.EndsPast .done [last] c ∧
      c.sees (· == .mark .comma) = false
  | .sequence, _, trees, c =>
    ∃ tree, trees = [tree] ∧ c.IsPast Strength.assignment.looseness tree ∧
      c.sees (· == .mark .comma) = false
  | _, _, _, _ => True

/-- Readers of expressions go on as long as they can. -/
theorem Reads.endsPast {phrase : Phrase} {c c₁ : Cursor} {trees : List Tree}
    (h : Reads progress phrase c trees c₁) : phrase.EndsPast progress trees c₁ := by
  induction h with
  | oneItem _ hcomma ih => exact ⟨_, rfl, ih, hcomma⟩
  | moreItems _ _ _ _ ih =>
    obtain ⟨last, hlast, hitem, hcomma⟩ := ih
    refine ⟨last, ?_, hitem, hcomma⟩
    rw [List.getLast?_cons_cons, List.getLast?_cons, hlast, Option.getD_some]
  | noAssignment _ hsees ih => exact IsBehind.looser ih rfl hsees
  | operations _ hsees ih => exact IsBehind.looser ih rfl hsees
  | noPower _ hsees ih => exact IsBehind.looser ih rfl hsees
  | accesses _ hsees ih => exact IsBehind.looser ih rfl hsees
  | unsigned _ _ ih => exact IsBehind.looser ih rfl Option.any_false
  | noStep _ _ ih =>
    obtain ⟨tree, htree, hnode, hpast⟩ := ih
    exact ⟨tree, htree, hnode, hpast.looser rfl fun hne => absurd rfl hne⟩
  | operand _ ih => exact ih
  | subject _ ih => exact ih
  | assignment _ _ _ _ ih => exact IsBehind.expression ih rfl
  | binary _ _ _ _ ih => exact IsBehind.expression ih rfl
  | power _ _ _ _ ih => exact IsBehind.expression ih rfl
  | signed _ _ ih => exact IsBehind.expression ih rfl
  | stepped _ _ ih => exact IsBehind.step ih _ _
  | member | index | call | array | parenthesized => exact isBehind_primary _ _
  | atom =>
    unfold Tree.atom
    split <;> exact isBehind_primary _ _
  | sequence _ ih =>
    obtain ⟨last, hlast, ⟨tree, htree, -, hpast⟩, hcomma⟩ := ih
    cases htree
    rw [branch_eq]
    exact ⟨_, rfl, hpast.of_last hlast, hcomma⟩
  | _ => trivial

/-! ## Where nodes stand -/

namespace Tree

/-- A tree stands among others, or inside one of them, behind so many leaves. -/
inductive Stands (sub : Tree) : Nat → List Tree → Prop
  | here {rest : List Tree} : Stands sub 0 (sub :: rest)
  | inside {before : Nat} {rule : Rule} {children rest : List Tree} {span : Span} :
      Stands sub before children → Stands sub before (.node rule children span :: rest)
  | later {before : Nat} {tree : Tree} {rest : List Tree} :
      Stands sub before rest → Stands sub (tree.leaves.length + before) (tree :: rest)

variable {sub : Tree} {before : Nat} {trees later : List Tree}

/-- The leaves of a tree are found where it stands. -/
theorem Stands.leaves_prefix (h : sub.Stands before trees) :
    sub.leaves <+: (allLeaves trees).drop before := by
  induction h with
  | here =>
    rw [allLeaves]
    exact List.prefix_append _ _
  | inside _ ih =>
    rw [allLeaves, leaves, List.drop_append]
    exact ih.trans (List.prefix_append _ _)
  | later _ ih =>
    rw [allLeaves, List.drop_length_add_append]
    exact ih

/-- What stands among children stands in the node. -/
theorem Stands.branch {rule : Rule} {children rest : List Tree} (h : sub.Stands before children)
    (anchor : Nat) : sub.Stands before (Tree.branch rule children anchor :: rest) := by
  rw [branch_eq]
  exact .inside h

/-- What stands in two lists stands in one of them. -/
theorem Stands.append (h : sub.Stands before (trees ++ later)) :
    sub.Stands before trees ∨
      ∃ behind, before = (allLeaves trees).length + behind ∧ sub.Stands behind later := by
  induction trees generalizing before with
  | nil => exact .inr ⟨before, (Nat.zero_add _).symm, h⟩
  | cons tree rest ih =>
    cases h with
    | here => exact .inl .here
    | inside hinside => exact .inl (.inside hinside)
    | later hlater =>
      rcases ih hlater with hrest | ⟨behind, rfl, hbehind⟩
      · exact .inl (.later hrest)
      · refine .inr ⟨behind, ?_, hbehind⟩
        rw [allLeaves, List.length_append, Nat.add_assoc]

/-! ## What nodes demand of the tokens -/

/-- What a node demands of the tokens from its first one on. -/
def Obeys (tokens : List Token) : Tree → Prop
  -- An end mark is left out before a closing brace, at the end of the input or at a line break.
  | node .eos children _ =>
    (∃ token ∈ tokens.head?, token.kind = .mark .semicolon ∧ children = [token.leaf]) ∨
      children = [] ∧ ∀ token ∈ tokens.head?, token.kind ≠ .mark .semicolon ∧
        (token.kind = .mark .closeBrace ∨ token.newlineBefore = true)
  -- What follows then could not have gone on with the statement, but for an access behind a step.
  | node .expressionStatement children _ =>
    ∃ (sequence : Tree) (marks : List Tree) (endSpan : Span),
      children = [sequence, node .eos marks endSpan] ∧
      (marks = [] → ∀ token ∈ (tokens.drop sequence.leaves.length).head?,
        token.kind ≠ .mark .comma ∧ (∀ level : Level, level.accepts token.kind = false) ∧
        token.kind ≠ .mark .power ∧ token.kind.isAssignment = false ∧
        (token.kind.isAccess = true → sequence.EndsInStep))
  -- There is a value if and only if one can begin on the line of the keyword.
  | node .returnStatement children _ =>
    ∃ (keyword : Tree) (value : Option Tree) (ending : Tree),
      children = keyword :: value.toList ++ [ending] ∧
      (value.isSome = true ↔ ∃ token ∈ (tokens.drop 1).head?, token.kind ≠ .mark .semicolon ∧
        token.kind ≠ .mark .closeBrace ∧ token.newlineBefore = false)
  -- A sign behind an operand is a step sign on the line of the operand's end.
  | node .singleExpression [operand, leaf category text span] _ =>
    operand.isLeaf = false → ∃ token ∈ (tokens.drop operand.leaves.length).head?,
      token.leaf = leaf category text span ∧ token.kind.isStep = true ∧
      token.newlineBefore = false
  | _ => True

/-- An expression whose last part is a node demands nothing. -/
theorem obeys_pair {second : Tree} (h : second.isLeaf = false) (first : Tree) (tokens : List Token)
    (span : Span) : (node .singleExpression [first, second] span).Obeys tokens := by
  cases second with
  | node => trivial
  | leaf => cases h

/-- So does one of three parts or more. -/
theorem obeys_triple (first second third : Tree) (rest : List Tree) (tokens : List Token)
    (span : Span) :
    (node .singleExpression (first :: second :: third :: rest) span).Obeys tokens := by
  cases second <;> trivial

end Tree

/-- Whether the nodes of a rule demand nothing. -/
def Rule.isFree : Rule → Bool
  | .eos | .expressionStatement | .returnStatement | .singleExpression => false
  | _ => true

/-- A rule that is free has nothing to obey. -/
theorem Tree.obeys_of_isFree {rule : Rule} (h : rule.isFree = true) (tokens : List Token)
    (children : List Tree) (span : Span) : (node rule children span).Obeys tokens := by
  cases rule <;> trivial

/-! ## From cursor to cursor -/

namespace Cursor

variable {test : Kind → Bool} {token : Token}

/-- The trees take up the tokens from one cursor to another, and all nodes in them get what they
demand. -/
structure Suits (c : Cursor) (trees : List Tree) (c₁ : Cursor) : Prop where
  ahead : c.tokens.drop (allLeaves trees).length = c₁.tokens
  obeys : ∀ {sub : Tree} {before : Nat}, sub.Stands before trees →
    sub.Obeys (c.tokens.drop before)

variable {c c₁ c₂ : Cursor} {rule : Rule} {children parts trees rest : List Tree} {tree : Tree}

/-- Nothing suits. -/
theorem Suits.nil : c.Suits [] c where
  ahead := rfl
  obeys hstands := by cases hstands

/-- Parts that suit, one behind the other. -/
theorem Suits.append (h : c.Suits trees c₁) (hrest : c₁.Suits rest c₂) :
    c.Suits (trees ++ rest) c₂ where
  ahead := by rw [allLeaves_append, List.length_append, ← List.drop_drop, h.ahead, hrest.ahead]
  obeys hstands := by
    rcases hstands.append with hfirst | ⟨behind, rfl, hlater⟩
    · exact h.obeys hfirst
    · rw [← List.drop_drop, h.ahead]
      exact hrest.obeys hlater

/-- A part that suits, in front of others. -/
theorem Suits.cons (h : c.Suits [tree] c₁) (hrest : c₁.Suits rest c₂) :
    c.Suits (tree :: rest) c₂ :=
  h.append hrest

/-- A token that is taken is the next one. -/
theorem Takes.mem_head? (h : c.Takes test token c₁) : token ∈ c.tokens.head? := by
  cases h
  rfl

/-- A token that is taken suits. -/
theorem Takes.suits (h : c.Takes test token c₁) : c.Suits [token.leaf] c₁ := by
  cases h
  refine ⟨rfl, fun hstands => ?_⟩
  cases hstands with
  | here => trivial
  | later hlater => cases hlater

/-- A node suits if its children do and it gets what it demands itself. -/
theorem Suits.node (hnode : ∀ span, (Tree.node rule children span).Obeys c.tokens)
    (h : c.Suits children c₁) (span : Span) : c.Suits [.node rule children span] c₁ where
  ahead := by
    rw [allLeaves_singleton, Tree.leaves]
    exact h.ahead
  obeys hstands := by
    cases hstands with
    | here => exact hnode span
    | inside hinside => exact h.obeys hinside
    | later hlater => cases hlater

/-- A node of a free rule suits if its children do. -/
theorem Suits.branch (hrule : rule.isFree = true) (h : c.Suits children c₁) (anchor : Nat) :
    c.Suits [Tree.branch rule children anchor] c₁ := by
  rw [branch_eq]
  exact h.node (Tree.obeys_of_isFree hrule _ _) _

/-- So does one with a single child. -/
theorem Suits.wrap (hrule : rule.isFree = true) (h : c.Suits [tree] c₁) :
    c.Suits [Tree.wrap rule tree] c₁ :=
  h.branch hrule _

/-- An expression suits if it obeys and its parts suit. -/
theorem Suits.expression
    (hnode : ∀ span, (Tree.node .singleExpression parts span).Obeys c.tokens)
    (h : c.Suits parts c₁) : c.Suits [Tree.expression parts] c₁ := by
  rw [Tree.expression_eq]
  exact h.node hnode _

/-- An atom suits if its token does. -/
theorem Suits.atom {token : Tree} (h : c.Suits [token] c₁) : c.Suits [.atom token] c₁ := by
  unfold Tree.atom
  split
  · exact (h.wrap rfl).expression fun _ => trivial
  · exact ((h.wrap rfl).wrap rfl).expression fun _ => trivial
  · exact ((h.wrap rfl).wrap rfl).expression fun _ => trivial
  · exact (h.wrap rfl).expression fun _ => trivial

/-- An operator of assignment suits if its sign does. -/
theorem Suits.assignmentOperator {sign : Token} (h : c.Suits [sign.leaf] c₁) :
    c.Suits [sign.assignmentOperator] c₁ := by
  unfold Token.assignmentOperator
  split
  · exact h
  · exact h.wrap rfl

/-- The next token, told from what the cursor sees. -/
theorem kind_of_head? (h : token ∈ c.tokens.head?) : c.kind? = some token.kind := by
  rw [kind?, Option.mem_def.mp h, Option.map_some]

/-- A line break before the next token is before the cursor. -/
theorem newlineBefore_of_head? (h : token ∈ c.tokens.head?) :
    c.newlineBefore = token.newlineBefore := by
  obtain ⟨tokens, endOffset, newlineBeforeEnd, previousEnd⟩ := c
  cases tokens with
  | nil => cases h
  | cons first rest =>
    cases h
    rfl

/-- A test of the cursor is one of the next token. -/
theorem test_of_head? (h : token ∈ c.tokens.head?) {answer : Bool} (hsees : c.sees test = answer) :
    test token.kind = answer := by
  rw [sees, kind_of_head? h] at hsees
  exact hsees

/-- A token that is not seen is not the next. -/
theorem ne_of_head? {kind : Kind} (h : token ∈ c.tokens.head?)
    (hsees : c.sees (· == kind) = false) :
    token.kind ≠ kind :=
  beq_eq_false_iff_ne.mp (test_of_head? h hsees)

end Cursor

/-! ## The rules with demands -/

section

variable {c c₁ c₂ : Cursor}

/-- An end mark obeys the rule for endings. -/
theorem Tree.obeys_endMark {semicolon : Token}
    (h : c.Takes (· == .mark .semicolon) semicolon c₁) (span : Span) :
    (Tree.node .eos [semicolon.leaf] span).Obeys c.tokens :=
  .inl ⟨semicolon, h.mem_head?, beq_iff_eq.mp h.test_kind, rfl⟩

/-- An end mark is left out only where it may be. -/
theorem Tree.obeys_noEndMark (hsemicolon : c.sees (· == .mark .semicolon) = false)
    (hend : c.sees (· == .mark .closeBrace) = true ∨ c.tokens = [] ∨ c.newlineBefore = true)
    (span : Span) : (Tree.node .eos [] span).Obeys c.tokens := by
  refine .inr ⟨rfl, fun token htoken => ⟨ne_of_head? htoken hsemicolon, ?_⟩⟩
  rcases hend with hbrace | htokens | hnewline
  · exact .inl (beq_iff_eq.mp (test_of_head? htoken hbrace))
  · rw [htokens] at htoken
    cases htoken
  · exact .inr ((newlineBefore_of_head? htoken).symm.trans hnewline)

/-- Where the end mark of an expression is left out, its readers could not go on. -/
theorem Tree.obeys_expressionStatement {sequence ending : Tree}
    (hsequence : Reads .done .sequence c [sequence] c₁)
    (hending : Reads .done .ending c₁ [ending] c₂)
    (hahead : c.tokens.drop sequence.leaves.length = c₁.tokens) (span : Span) :
    (Tree.node .expressionStatement [sequence, ending] span).Obeys c.tokens := by
  obtain ⟨tree, htree, hpast, hcomma⟩ := hsequence.endsPast
  cases htree
  cases hending with
  | endMark =>
    rw [Tree.wrap_eq]
    exact ⟨sequence, _, _, rfl, fun hmarks => by cases hmarks⟩
  | noEndMark =>
    rw [branch_eq]
    refine ⟨sequence, [], _, rfl, fun _ token htoken => ?_⟩
    rw [hahead] at htoken
    have hnone (other : Strength) (hstepped : other ≠ .stepped)
        (hchain : other = .chain → ¬ sequence.EndsInStep) : other.accepts token.kind = false := by
      have hbound : other.looseness ≤ Strength.assignment.looseness := by
        cases other with
        | level l => cases l <;> decide
        | _ => decide
      exact test_of_head? htoken (hpast other hbound hstepped hchain)
    refine ⟨ne_of_head? htoken hcomma, fun level => ?_, ?_, ?_, fun haccess => ?_⟩
    · exact hnone (.level level) (by simp) (by simp)
    · exact beq_eq_false_iff_ne.mp (hnone .power (by simp) (by simp))
    · exact hnone .assignment (by simp) (by simp)
    · by_contra hends
      have hfalse : token.kind.isAccess = false := hnone .chain (by simp) fun _ => hends
      rw [haccess] at hfalse
      cases hfalse

/-- A value follows the keyword exactly where one can begin on its line. -/
theorem Tree.obeys_returnStatement {keyword : Token} {value : List Tree} {ending : Tree}
    (hkeyword : c.Takes (· == .word .returnWord) keyword c₁)
    (hvalue : Reads .done (.optional .sequence) c₁ value c₂) (span : Span) :
    (Tree.node .returnStatement (keyword.leaf :: value ++ [ending]) span).Obeys c.tokens := by
  have hahead : c.tokens.drop 1 = c₁.tokens := hkeyword.suits.ahead
  cases hvalue with
  | noValue hnone =>
    refine ⟨keyword.leaf, none, ending, rfl, ⟨fun hsome => absurd hsome Bool.false_ne_true, ?_⟩⟩
    rintro ⟨token, htoken, hsemicolon, hbrace, hnewline⟩
    rw [hahead] at htoken
    rcases hnone with hsees | hsees | htokens | hbreak
    · exact (hsemicolon (beq_iff_eq.mp (test_of_head? htoken hsees))).elim
    · exact (hbrace (beq_iff_eq.mp (test_of_head? htoken hsees))).elim
    · rw [htokens] at htoken
      cases htoken
    · rw [newlineBefore_of_head? htoken, hnewline] at hbreak
      cases hbreak
  | @value _ _ sequence hsemicolon hbrace htokens hnewline _ =>
    refine ⟨keyword.leaf, some sequence, ending, rfl, ⟨fun _ => ?_, fun _ => rfl⟩⟩
    obtain ⟨token, htoken⟩ := Option.isSome_iff_exists.mp (List.isSome_head?.mpr htokens)
    rw [hahead]
    exact ⟨token, htoken, ne_of_head? htoken hsemicolon, ne_of_head? htoken hbrace,
      (newlineBefore_of_head? htoken).symm.trans hnewline⟩

/-- A step sign is taken from the line of its operand's end. -/
theorem Tree.obeys_stepped {operand : Tree} {sign : Token}
    (hsign : c₁.Takes (fun kind => kind.isStep && !c₁.newlineBefore) sign c₂)
    (hahead : c.tokens.drop operand.leaves.length = c₁.tokens) (span : Span) :
    (Tree.node .singleExpression [operand, sign.leaf] span).Obeys c.tokens := by
  intro _
  have htoken := hsign.mem_head?
  obtain ⟨hstep, hnewline⟩ := Bool.and_eq_true_iff.mp hsign.test_kind
  rw [newlineBefore_of_head? htoken, Bool.not_eq_true'] at hnewline
  rw [hahead]
  exact ⟨sign, htoken, rfl, hstep, hnewline⟩

end

/-! ## All nodes get what they demand -/

/-- Arguments are no leaf. -/
theorem Reads.isLeaf_arguments {c c₁ : Cursor} {tree : Tree}
    (h : Reads .done .arguments c [tree] c₁) : tree.isLeaf = false := by
  cases h <;> (rw [branch_eq]; rfl)

/-- All that is read suits. -/
theorem Reads.suits {phrase : Phrase} {c c₁ : Cursor} {trees : List Tree}
    (h : Reads progress phrase c trees c₁) : c.Suits trees c₁ := by
  induction h with
  | oneItem _ _ ih => exact ih
  | moreItems _ hcomma _ ihtree ihrest => exact ihtree.cons (hcomma.suits.cons ihrest)
  | none => exact .nil
  | more _ _ _ _ ihtree ihrest => exact ihtree.cons ihrest
  | identifier hname => exact hname.suits.wrap rfl
  | memberName hname => exact (hname.suits.wrap rfl).wrap rfl
  | memberWord hword => exact hword.suits.wrap rfl
  | assignable _ ih => exact ih.wrap rfl
  | noAssignment _ _ ih => exact ih
  | assignment _ hsign _ ihtarget ihvalue =>
    have hoperator := hsign.suits.assignmentOperator
    exact (ihtarget.cons (hoperator.cons ihvalue)).expression (Tree.obeys_triple _ _ _ _ _)
  | operand _ ih => exact ih
  | binary _ hsign _ ihleft ihright =>
    exact (ihleft.cons (hsign.suits.cons ihright)).expression (Tree.obeys_triple _ _ _ _ _)
  | operations _ _ ih => exact ih
  | noPower _ _ ih => exact ih
  | power _ hsign _ ihbase ihexponent =>
    exact (ihbase.cons (hsign.suits.cons ihexponent)).expression (Tree.obeys_triple _ _ _ _ _)
  | unsigned _ _ ih => exact ih
  | signed hsign hoperand ih =>
    obtain ⟨tree, htree, hnode, -⟩ := hoperand.endsPast
    cases htree
    exact (hsign.suits.cons ih).expression (Tree.obeys_pair hnode _ _)
  | noStep _ _ ih => exact ih
  | stepped _ hsign ih =>
    have hahead := ih.ahead
    rw [allLeaves_singleton] at hahead
    exact (ih.cons hsign.suits).expression (Tree.obeys_stepped hsign hahead)
  | subject _ ih => exact ih
  | member _ hdot _ ihsubject ihname =>
    exact (ihsubject.cons (hdot.suits.cons ihname)).expression (Tree.obeys_triple _ _ _ _ _)
  | index _ hleft _ hright ihsubject ihindex =>
    have hindex := hleft.suits.cons (ihindex.cons hright.suits)
    exact (ihsubject.cons hindex).expression (Tree.obeys_triple _ _ _ _ _)
  | call _ harguments ihsubject iharguments =>
    exact (ihsubject.cons iharguments).expression (Tree.obeys_pair harguments.isLeaf_arguments _ _)
  | accesses _ _ ih => exact ih
  | atom htoken => exact htoken.suits.atom
  | array hleft _ hright ih =>
    refine Suits.expression (fun _ => trivial) (Suits.branch rfl ?_ _)
    exact hleft.suits.cons ((ih.branch rfl _).cons hright.suits)
  | parenthesized hleft _ hright ih =>
    exact (hleft.suits.cons (ih.cons hright.suits)).expression (Tree.obeys_triple _ _ _ _ _)
  | sequence _ ih => exact ih.branch rfl _
  | argument _ ih => exact ih.wrap rfl
  | noArguments hleft hright => exact (hleft.suits.cons hright.suits).branch rfl _
  | arguments hleft _ _ hright ih =>
    exact ((hleft.suits.cons ih).append hright.suits).branch rfl _
  | noElements => exact .nil
  | skippedElement hcomma _ ih => exact hcomma.suits.cons ih
  | lastElement _ _ _ _ _ ih => exact ih.wrap rfl
  | element _ _ _ _ hcomma _ ihvalue ihrest =>
    exact (ihvalue.wrap rfl).cons (hcomma.suits.cons ihrest)
  | endMark hsemicolon =>
    rw [Tree.wrap_eq]
    exact hsemicolon.suits.node (Tree.obeys_endMark hsemicolon) _
  | noEndMark hsemicolon hend =>
    rw [branch_eq]
    exact Suits.nil.node (Tree.obeys_noEndMark hsemicolon hend) _
  | bareDeclarator _ _ ih => exact ih.wrap rfl
  | declarator _ hsign _ ihname ihvalue =>
    exact (ihname.cons (hsign.suits.cons ihvalue)).branch rfl _
  | variableStatement hmodifier _ _ ihdeclarators ihending =>
    refine Suits.branch rfl (Suits.cons (Suits.branch rfl ?_ _) ihending) _
    exact (hmodifier.suits.wrap rfl).cons ihdeclarators
  | emptyStatement hsemicolon => exact hsemicolon.suits.wrap rfl
  | expressionStatement hsequence hending ihsequence ihending =>
    have hahead := ihsequence.ahead
    rw [allLeaves_singleton] at hahead
    rw [branch_eq]
    exact (ihsequence.cons ihending).node
      (Tree.obeys_expressionStatement hsequence hending hahead) _
  | noValue => exact .nil
  | value _ _ _ _ _ ih => exact ih
  | returnStatement hkeyword hvalue _ ihvalue ihending =>
    rw [branch_eq]
    exact ((hkeyword.suits.cons ihvalue).append ihending).node
      (Tree.obeys_returnStatement hkeyword hvalue) _
  | parameter _ ih => exact ih.wrap rfl
  | parameterList _ ih => exact ih.branch rfl _
  | noParameters => exact .nil
  | parameters _ _ ih => exact ih
  | function hkeyword _ hleft _ hright hopening _ hclosing ihname ihparameters ihelements =>
    have hhead := hkeyword.suits.cons (ihname.cons hleft.suits)
    have hbody := hopening.suits.cons (ihelements.cons hclosing.suits)
    exact ((hhead.append ihparameters).append (hright.suits.cons (hbody.branch rfl _))).branch rfl _
  | block hopening _ hclosing ih =>
    exact (hopening.suits.cons ((ih.branch rfl _).cons hclosing.suits)).branch rfl _
  | ifThen hkeyword hleft _ hright _ _ ihcondition ihconsequence =>
    have hrest := ihcondition.cons (hright.suits.cons ihconsequence)
    exact (hkeyword.suits.cons (hleft.suits.cons hrest)).branch rfl _
  | ifThenElse hkeyword hleft _ hright _ hotherwise _ ihcondition ihconsequence ihalternative =>
    have helse := ihconsequence.cons (hotherwise.suits.cons ihalternative)
    have hrest := ihcondition.cons (hright.suits.cons helse)
    exact (hkeyword.suits.cons (hleft.suits.cons hrest)).branch rfl _
  | loop hkeyword hleft _ hright _ ihcondition ihbody =>
    have hrest := ihcondition.cons (hright.suits.cons ihbody)
    exact (hkeyword.suits.cons (hleft.suits.cons hrest)).branch rfl _
  | statement _ ih => exact ih.wrap rfl
  | sourceElement _ ih => exact ih.wrap rfl
  | sourceElements _ ih => exact ih.branch rfl _
  | @program c c₁ elements _ hend ih =>
    -- The leaf for the end of the input takes no token.
    have hleaf : c₁.Suits [c₁.endLeaf] c₁ := by
      refine ⟨by rw [hend, List.drop_nil], fun hstands => ?_⟩
      cases hstands with
      | here => trivial
      | later hlater => cases hlater
    exact (ih.cons hleaf).branch rfl _

/-- The leaves of the tree of a source text are its tokens, and every node gets what it demands of
the tokens from where it stands. So an end mark is left out only before a closing brace, at the end
of the input or at a line break, and never where there is one; what follows an expression without
an end mark could not have gone on with it, unless it is an access behind a step; a `return` has a
value if and only if one can begin on its line; and a step sign is on the line of its operand. -/
theorem obeys_of_parse {source : String} {tree : Tree} (h : Tree.parse source = .ok tree) :
    let tokens := (TokenStream.ofSource source).tokens
    tree.leaves = tokens.map Token.leaf ++
        [.leaf .endOfInput "" (Span.point (Source.byteLength source.toList))] ∧
      ∀ (sub : Tree) (before : Nat), sub.Stands before [tree] →
        sub.leaves <+: tree.leaves.drop before ∧ sub.Obeys (tokens.drop before) := by
  intro tokens
  obtain ⟨c, hreads⟩ := Tree.parse_eq_ok_iff.mp h
  refine ⟨hreads.leaves_ofSource, fun sub before hstands => ⟨?_, hreads.suits.obeys hstands⟩⟩
  have hleaves := hstands.leaves_prefix
  rwa [allLeaves_singleton] at hleaves

/-! ## Three statements without end marks -/

/-- An expression is a sequence by itself where no reader goes on with it. -/
theorem Reads.sequence_of_power {c c₁ : Cursor} {tree : Tree}
    (h : Reads .done (.expression .power) c [tree] c₁)
    (hlevel : ∀ level : Level, c₁.sees level.accepts = false)
    (hassignment : c₁.sees Kind.isAssignment = false)
    (hcomma : c₁.sees (· == .mark .comma) = false) :
    Reads .done .sequence c [branch .expressionSequence [tree] c.start] c₁ := by
  have hlooser (level : Level) (h : Reads .done (.expression level.operand) c [tree] c₁) :
      Reads .done (.expression (.level level)) c [tree] c₁ :=
    .operations (.operand h) (hlevel level)
  have harithmetic := hlooser .shift (hlooser .additive (hlooser .multiplicative h))
  have hcomparison := hlooser .equality (hlooser .comparison harithmetic)
  have hbits := hlooser .bitOr (hlooser .bitXor (hlooser .bitAnd hcomparison))
  have hlogic := hlooser .disjunction (hlooser .conjunction hbits)
  exact .sequence (.oneItem (.noAssignment hlogic hassignment) hcomma)

/-- One more statement in front of others. -/
theorem Reads.before {form : Phrase} {c c₁ c₂ : Cursor} {tree : Tree} {rest : List Tree}
    (h : Reads .done form c [tree] c₁) (hform : Phrase.ofFirst c.kind? = form)
    (hbrace : c.sees (· == .mark .closeBrace) = false) (htokens : c.tokens ≠ [])
    (hrest : Reads .done (.many .sourceElement) c₁ rest c₂) :
    Reads .done (.many .sourceElement) c
      (wrap .sourceElement (wrap .statement tree) :: rest) c₂ := by
  subst hform
  exact .more hbrace htokens (.sourceElement (.statement h)) hrest

/-- The tokens of a parenthesized name on a line of its own. -/
def parenthesizedTokens : List Token :=
  [⟨.mark .openParen, "(", ⟨11, 12⟩, true⟩, ⟨.name, "d", ⟨12, 13⟩, false⟩,
    ⟨.mark .closeParen, ")", ⟨13, 14⟩, false⟩]

/-- A step on a line of its own, with the parenthesis on the next one. -/
def steppedTokens : List Token :=
  ⟨.name, "c", ⟨7, 8⟩, true⟩ :: ⟨.mark .increment, "++", ⟨8, 10⟩, false⟩ :: parenthesizedTokens

/-- The tokens of a `return` on a line of its own and of what follows it. -/
def brokenTokens : List Token :=
  ⟨.word .returnWord, "return", ⟨0, 6⟩, false⟩ :: steppedTokens

/-- The tokens of the broken text. -/
theorem ofSource_broken :
    Cursor.ofSource "return\nc++\n(d)" = ⟨brokenTokens, 14, false, 0⟩ := by
  with_unfolding_all rfl

/-- The parenthesized name is read. -/
theorem reads_parenthesizedTokens :
    ∃ sequence, Reads .done .sequence ⟨parenthesizedTokens, 14, false, 10⟩ [sequence]
      ⟨[], 14, false, 14⟩ := by
  have hname : Reads .begun (.expression .chain) ⟨parenthesizedTokens.tail, 14, false, 12⟩ _ _ :=
    .subject (.atom (.intro rfl))
  have hinside := Reads.sequence_of_power
    (.noPower (.unsigned rfl (.noStep (.accesses hname rfl) rfl)) rfl)
    (by intro level; cases level <;> rfl) rfl rfl
  have hwhole : Reads .begun (.expression .chain) ⟨parenthesizedTokens, 14, false, 10⟩ _
    ⟨[], 14, false, 14⟩ := .subject (.parenthesized (.intro rfl) hinside (.intro rfl))
  exact ⟨_, Reads.sequence_of_power
    (.noPower (.unsigned rfl (.noStep (.accesses hwhole rfl) rfl)) rfl) (fun _ => rfl) rfl rfl⟩

/-- The step is a statement of its own, with the parenthesis right behind it. -/
theorem reads_steppedTokens :
    ∃ sequence endSpan span, Reads .done .expressionStatement ⟨steppedTokens, 14, false, 6⟩
        [.node .expressionStatement [sequence, .node .eos [] endSpan] span]
        ⟨parenthesizedTokens, 14, false, 10⟩ ∧
      steppedTokens.drop sequence.leaves.length = parenthesizedTokens := by
  have hname : Reads .begun (.expression .chain) ⟨steppedTokens, 14, false, 6⟩ _ _ :=
    .subject (.atom (.intro rfl))
  have hstep := Reads.stepped (.accesses hname rfl) (.intro rfl)
  have hsequence := Reads.sequence_of_power (.noPower (.unsigned rfl hstep) rfl)
    (by intro level; cases level <;> rfl) rfl rfl
  have hstatement := Reads.expressionStatement hsequence (.noEndMark rfl (.inr (.inr rfl)))
  have hahead := hsequence.suits.ahead
  rw [branch_eq .expressionStatement, branch_eq .eos] at hstatement
  rw [allLeaves_singleton] at hahead
  exact ⟨_, _, _, hstatement, hahead⟩

/-- The `return` is read up to the line break. -/
theorem reads_brokenTokens :
    ∃ keyword, Reads .done .returnStatement ⟨brokenTokens, 14, false, 0⟩ [keyword]
      ⟨steppedTokens, 14, false, 6⟩ :=
  ⟨_, .returnStatement (.intro rfl) (.noValue (.inr (.inr (.inr rfl))))
    (.noEndMark rfl (.inr (.inr rfl)))⟩

/-- Nothing but the keyword stands in front of the step. -/
theorem parse_broken :
    ∃ tree sequence endSpan span, Tree.parse "return\nc++\n(d)" = .ok tree ∧
      (Tree.node .expressionStatement [sequence, .node .eos [] endSpan] span).Stands 1 [tree] ∧
      steppedTokens.drop sequence.leaves.length = parenthesizedTokens := by
  obtain ⟨keyword, hkeyword⟩ := reads_brokenTokens
  obtain ⟨sequence, endSpan, span, hstep, hahead⟩ := reads_steppedTokens
  obtain ⟨later, hlater⟩ := reads_parenthesizedTokens
  have hlast := Reads.expressionStatement hlater (.noEndMark rfl (.inr (.inl rfl)))
  have helements := hkeyword.before rfl rfl (List.cons_ne_nil _ _)
    (hstep.before rfl rfl (List.cons_ne_nil _ _)
      (hlast.before rfl rfl (List.cons_ne_nil _ _) (.none (.inr rfl))))
  have hreads := Reads.program (.sourceElements helements) rfl
  rw [← ofSource_broken] at hreads
  refine ⟨_, sequence, endSpan, span, Tree.parse_eq_ok_iff.mpr ⟨_, hreads⟩, ?_, hahead⟩
  have hlength : (wrap .sourceElement (wrap .statement keyword)).leaves.length = 1 := by
    have hkept : 6 - (allLeaves [keyword]).length = 5 :=
      List.length_drop.symm.trans (congrArg List.length hkeyword.suits.ahead)
    rw [Tree.wrap_eq, Tree.leaves, allLeaves_singleton, Tree.wrap_eq, Tree.leaves]
    omega
  rw [← hlength]
  exact .branch (.branch (.later (.branch (.branch .here _) _)) _) _

/-- The step ends the second statement, though a parenthesis follows it. -/
theorem obeys_of_parse_broken :
    ∃ tree sequence endSpan span, Tree.parse "return\nc++\n(d)" = .ok tree ∧
      let statement := Tree.node .expressionStatement [sequence, .node .eos [] endSpan] span
      statement.Stands 1 [tree] ∧ statement.leaves <+: tree.leaves.drop 1 ∧
        sequence.EndsInStep := by
  obtain ⟨tree, sequence, endSpan, span, hparse, hstands, hahead⟩ := parse_broken
  obtain ⟨hleaves, hobeys⟩ := (obeys_of_parse hparse).2 _ _ hstands
  refine ⟨tree, sequence, endSpan, span, hparse, hstands, hleaves, ?_⟩
  have htokens : (TokenStream.ofSource "return\nc++\n(d)").tokens.drop 1 = steppedTokens :=
    congrArg (·.tokens.drop 1) ofSource_broken
  rw [htokens] at hobeys
  have hopening : ⟨.mark .openParen, "(", ⟨11, 12⟩, true⟩ ∈
      (steppedTokens.drop sequence.leaves.length).head? := by
    rw [hahead]
    rfl
  obtain ⟨_, _, _, hchildren, hafter⟩ := hobeys
  cases hchildren
  obtain ⟨-, -, -, -, haccess⟩ := hafter rfl _ hopening
  exact haccess rfl

end TreeScript
