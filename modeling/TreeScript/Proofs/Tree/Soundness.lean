import TreeScript.Proofs.Tree.Completeness

/-!
# Trees that are read are trees of the grammar

By induction on derivations, everything that is read for a phrase is produced by it. The rules put
a reading together from tokens and smaller readings in a few ways, and `Grants` has a lemma for
each of them. Two facts about cursors go along: their tokens spell their kinds, which makes leaves
of the tokens taken, and after a statement that ends in a conditional without `else` no `else`
follows, which settles the conditional that an `else` belongs to.
-/

namespace TreeScript

namespace Cursor

/-- All tokens ahead that are not invalid spell their kinds. -/
def IsSpelled (c : Cursor) : Prop :=
  ∀ token ∈ c.tokens, token.kind ≠ .invalid → Spells token.text token.kind

/-- Source texts are spelled. -/
theorem isSpelled_ofSource (source : String) : (Cursor.ofSource source).IsSpelled :=
  Scan.spells_of_mem_scanFrom 0 source.toList

/-- A token that is taken becomes a leaf of the grammar. -/
theorem Takes.token {test : Kind → Bool} {c c₁ : Cursor} {token : Token}
    (h : c.Takes test token c₁) (hc : c.IsSpelled) (hinvalid : test .invalid = false) :
    c₁.IsSpelled ∧ token.leaf.IsToken test := by
  cases h with
  | intro htest =>
    obtain ⟨htoken, hrest⟩ := List.forall_mem_cons.mp hc
    have hvalid : token.kind ≠ .invalid := by
      intro hkind
      rw [hkind, hinvalid] at htest
      cases htest
    exact ⟨hrest, .leaf htest hvalid (htoken hvalid) _⟩

/-- Assignments are plain or compound. -/
theorem Takes.plain_or_compound {c c₁ : Cursor} {sign : Token}
    (h : c.Takes Kind.isAssignment sign c₁) :
    c.Takes (· == .mark .assign) sign c₁ ∨ c.Takes Kind.isCompound sign c₁ := by
  by_cases hplain : sign.kind = .mark .assign
  · exact .inl (h.mono fun _ => beq_iff_eq.mpr hplain)
  · exact .inr (h.mono fun hkind => by simp [Kind.isCompound, hkind, hplain])

end Cursor

/-- A token passes a wider test. -/
theorem Tree.IsToken.mono {test wider : Kind → Bool} {tree : Tree}
    (h : ∀ kind, test kind = true → wider kind = true) (htree : tree.IsToken test) :
    tree.IsToken wider := by
  cases htree with
  | leaf hkind hvalid htext span => exact .leaf (h _ hkind) hvalid htext span

/-- No `else` follows what ends in a conditional that lacks one. -/
theorem Reads.sees_else {progress : Progress} {phrase : Phrase} {c c₁ : Cursor} {tree : Tree}
    (h : Reads progress phrase c [tree] c₁) (hphrase : phrase ∈ .statement :: Phrase.statementForms)
    (hopen : tree.endsOpen = true) : c₁.sees (· == .word .elseWord) = false := by
  generalize htrees : [tree] = trees at h
  induction h generalizing tree with
  | ifThen _ _ _ _ _ helse => exact helse
  | ifThenElse _ _ _ _ _ _ _ _ _ ih =>
    cases htrees
    rw [Tree.branch_eq, Tree.endsOpen] at hopen
    exact ih (by simp) hopen rfl
  | loop _ _ _ _ _ _ ih =>
    cases htrees
    rw [Tree.branch_eq, Tree.endsOpen] at hopen
    exact ih (by simp) hopen rfl
  | @statement c _ _ _ ih =>
    cases htrees
    rw [Tree.wrap_eq, Tree.endsOpen] at hopen
    exact ih (List.mem_cons_of_mem _ (Phrase.ofFirst_mem c.kind?)) hopen rfl
  | variableStatement | emptyStatement | expressionStatement | returnStatement | function | block =>
    cases htrees
    simp [Tree.branch_eq, Tree.wrap_eq, Tree.endsOpen] at hopen
  | _ => simp [Phrase.statementForms] at hphrase

/-- In front of an `else`, a statement does not end in a conditional that lacks one. -/
theorem Reads.endsOpen_of_takes_else {c c₁ c₂ : Cursor} {tree : Tree} {token : Token}
    (h : Reads .done .statement c [tree] c₁) (helse : c₁.Takes (· == .word .elseWord) token c₂) :
    tree.endsOpen = false := by
  rw [Bool.eq_false_iff]
  intro hopen
  have hnone := h.sees_else List.mem_cons_self hopen
  rw [helse.sees] at hnone
  cases hnone

/-- The leaf of an atom is put below the nodes of its class. -/
theorem produces_atom {token : Tree} (h : token.IsToken Kind.isAtom) (omits : Bool) :
    Produces omits (.expression .primary) [.atom token] := by
  cases h with
  | @leaf kind text hkind hvalid htext span =>
    have htoken (test : Kind → Bool) (htest : test kind = true) :
        (Tree.leaf (.ofKind kind) text span).IsToken test := .leaf htest hvalid htext span
    unfold Tree.atom Tree.category?
    simp only [Tree.wrap_eq, Tree.expression_eq]
    cases kind with
    | number | radixNumber => exact .number (htoken Kind.isNumeric rfl)
    | string => exact .constant (htoken Kind.isConstant rfl)
    | name => exact .name (.identifier (htoken (· == .name) rfl))
    | word word =>
      cases word with
      | falseWord | nullWord | trueWord => exact .constant (htoken Kind.isConstant rfl)
      | _ => cases hkind
    | mark | invalid => cases hkind

/-! ## Parts of a reading -/

/-- From a cursor whose tokens spell their kinds, a part of a reading leads to another such cursor,
and what is read is as it should be. -/
def Grants (c c₁ : Cursor) (part : Prop) : Prop := c.IsSpelled → c₁.IsSpelled ∧ part

namespace Grants

variable {c c₁ c₂ c₃ c₄ : Cursor} {first second result : Prop} {test other last : Kind → Bool}
  {sign opening closing keyword : Token}

/-- Nothing is read. -/
theorem here (h : result) : Grants c c result := fun hc => ⟨hc, h⟩

/-- One part is read. -/
theorem one (h : Grants c c₁ first) (build : first → result) : Grants c c₁ result :=
  fun hc => (h hc).imp_right build

/-- Two parts are read one after the other. -/
theorem two (h : Grants c c₁ first) (hnext : Grants c₁ c₂ second)
    (build : first → second → result) : Grants c c₂ result := by
  intro hc
  obtain ⟨hc₁, hfirst⟩ := h hc
  exact (hnext.one (build hfirst)) hc₁

/-- A token is read. -/
theorem token (h : c.Takes test sign c₁) (hinvalid : test .invalid = false)
    (build : sign.leaf.IsToken test → result) : Grants c c₁ result :=
  fun hc => (h.token hc hinvalid).imp_right build

/-- Two parts are read with a token between them. -/
theorem between (h : Grants c c₁ first) (hsign : c₁.Takes test sign c₂)
    (hinvalid : test .invalid = false) (hnext : Grants c₂ c₃ second)
    (build : first → sign.leaf.IsToken test → second → result) : Grants c c₃ result :=
  h.two ((token hsign hinvalid id).two hnext And.intro) fun hfirst hlater =>
    build hfirst hlater.1 hlater.2

/-- A part is read between two tokens. -/
theorem enclosed (hopening : c.Takes test opening c₁) (h : Grants c₁ c₂ first)
    (hclosing : c₂.Takes other closing c₃) (hinvalid : test .invalid = false)
    (hinvalid' : other .invalid = false)
    (build : opening.leaf.IsToken test → first → closing.leaf.IsToken other → result) :
    Grants c c₃ result :=
  (token hopening hinvalid id).two (h.two (token hclosing hinvalid' id) And.intro)
    fun hopening hlater => build hopening hlater.1 hlater.2

/-- A keyword is read, and a part between two tokens behind it. -/
theorem headed (hkeyword : c.Takes last keyword c₁) (hopening : c₁.Takes test opening c₂)
    (h : Grants c₂ c₃ first) (hclosing : c₃.Takes other closing c₄)
    (hinvalid : last .invalid = false) (hinvalid' : test .invalid = false)
    (hinvalid'' : other .invalid = false)
    (build : keyword.leaf.IsToken last → opening.leaf.IsToken test → first →
      closing.leaf.IsToken other → result) : Grants c c₄ result := by
  refine (token hkeyword hinvalid id).two
    (enclosed hopening h hclosing hinvalid' hinvalid'' fun hopening hfirst hclosing =>
      And.intro hopening (And.intro hfirst hclosing)) ?_
  intro hkeyword hrest
  exact build hkeyword hrest.1 hrest.2.1 hrest.2.2

end Grants

/-- An assignment is read with a plain sign or with one that combines it with an operator. -/
theorem grants_assignment {c c₁ c₂ c₃ : Cursor} {sign : Token} {target value : Tree}
    (htarget : Grants c c₁ (Produces true (.expression (.level .disjunction)) [target]))
    (hsign : c₁.Takes Kind.isAssignment sign c₂)
    (hvalue : Grants c₂ c₃ (Produces true (.expression .assignment) [value])) :
    Grants c c₃ (Produces true (.expression .assignment)
      [.expression [target, sign.assignmentOperator, value]]) := by
  rw [Tree.expression_eq]
  rcases hsign.plain_or_compound with hplain | hcompound
  · rw [hplain.plain.2]
    exact htarget.between hplain rfl hvalue .assignment
  · rw [hcompound.compound.2, Tree.wrap_eq]
    exact htarget.between hcompound rfl hvalue .compound

/-- A conditional with both branches is read. Its consequence does not end in a conditional that
lacks an `else`, since that one would have taken the `else` that follows. -/
theorem grants_ifThenElse {c c₁ c₂ c₃ c₄ c₅ c₆ c₇ : Cursor}
    {keyword left right otherwise : Token} {condition consequence alternative : Tree}
    (hkeyword : c.Takes (· == .word .ifWord) keyword c₁)
    (hleft : c₁.Takes (· == .mark .openParen) left c₂)
    (hcondition : Grants c₂ c₃ (Produces true .sequence [condition]))
    (hright : c₃.Takes (· == .mark .closeParen) right c₄)
    (hreads : Reads .done .statement c₄ [consequence] c₅)
    (hconsequence : Grants c₄ c₅ (Produces true .statement [consequence]))
    (hotherwise : c₅.Takes (· == .word .elseWord) otherwise c₆)
    (halternative : Grants c₆ c₇ (Produces true .statement [alternative])) :
    Grants c c₇ (Produces true .conditional [.branch .ifStatement
      [keyword.leaf, left.leaf, condition, right.leaf, consequence, otherwise.leaf, alternative]
      c.start]) := by
  intro hc
  have hclosed := hreads.endsOpen_of_takes_else hotherwise
  obtain ⟨hc₄, hkeyword, hleft, hcondition, hright⟩ := Grants.headed hkeyword hleft hcondition
    hright rfl rfl rfl (fun hkeyword hleft hcondition hright =>
      And.intro hkeyword (And.intro hleft (And.intro hcondition hright))) hc
  obtain ⟨hc₇, hconsequence, hotherwise, halternative⟩ := hconsequence.between hotherwise rfl
    halternative (fun hconsequence hotherwise halternative =>
      And.intro hconsequence (And.intro hotherwise halternative)) hc₄
  rw [Tree.branch_eq]
  exact ⟨hc₇, .ifThenElse hkeyword hleft hcondition hright hconsequence hclosed hotherwise
    halternative⟩

/-- A function is read: its name, its parameters between parentheses and its elements between
braces. -/
theorem grants_function {c c₁ c₂ c₃ c₄ c₅ c₆ c₇ c₈ : Cursor}
    {keyword left right opening closing : Token} {name elements : Tree} {parameters : List Tree}
    (hkeyword : c.Takes (· == .word .functionWord) keyword c₁)
    (hname : Grants c₁ c₂ (Produces true .identifier [name]))
    (hleft : c₂.Takes (· == .mark .openParen) left c₃)
    (hparameters : Grants c₃ c₄ (Produces true (.optional .parameterList) parameters))
    (hright : c₄.Takes (· == .mark .closeParen) right c₅)
    (hopening : c₅.Takes (· == .mark .openBrace) opening c₆)
    (helements : Grants c₆ c₇ (Produces true .sourceElements [elements]))
    (hclosing : c₇.Takes (· == .mark .closeBrace) closing c₈) :
    Grants c c₈ (Produces true .function [.branch .functionDeclaration
      ([keyword.leaf, name, left.leaf] ++ parameters ++
        [right.leaf, .branch .functionBody [opening.leaf, elements, closing.leaf] c₅.start])
      c.start]) := by
  intro hc
  obtain ⟨hc₁, hkeyword⟩ := hkeyword.token hc rfl
  obtain ⟨hc₂, hname⟩ := hname hc₁
  obtain ⟨hc₃, hleft⟩ := hleft.token hc₂ rfl
  obtain ⟨hc₄, hparameters⟩ := hparameters hc₃
  obtain ⟨hc₅, hright⟩ := hright.token hc₄ rfl
  obtain ⟨hc₆, hopening⟩ := hopening.token hc₅ rfl
  obtain ⟨hc₇, helements⟩ := helements hc₆
  obtain ⟨hc₈, hclosing⟩ := hclosing.token hc₇ rfl
  simp only [Tree.branch_eq]
  exact ⟨hc₈, .function hkeyword hname hleft hparameters hright hopening helements hclosing⟩

/-! ## Everything that is read -/

/-- What is read for a phrase is produced by it. -/
theorem Reads.produces {progress : Progress} {phrase : Phrase} {c c₁ : Cursor} {trees : List Tree}
    (h : Reads progress phrase c trees c₁) : Grants c c₁ (Produces true phrase trees) := by
  induction h with
  | oneItem _ _ ih => exact ih.one .oneItem
  | moreItems _ hcomma _ ihtree ihrest => exact ihtree.between hcomma rfl ihrest .moreItems
  | none => exact .here .none
  | more _ _ _ _ ihtree ihrest => exact ihtree.two ihrest .more
  -- Names
  | identifier hname =>
    rw [Tree.wrap_eq]
    exact .token hname rfl .identifier
  | memberName hname =>
    simp only [Tree.wrap_eq]
    exact .token hname rfl fun hname => .memberName (.identifier hname)
  | memberWord hword =>
    rw [Tree.wrap_eq]
    exact .token hword rfl .memberWord
  | assignable _ ih =>
    rw [Tree.wrap_eq]
    exact ih.one .assignable
  -- An expression is also one of each weaker strength.
  | noAssignment _ _ ih | operand _ ih | noPower _ _ ih | unsigned _ _ ih | noStep _ _ ih
  | subject _ ih => exact ih.one (.tighter rfl)
  | operations _ _ ih | accesses _ _ ih => exact ih
  | assignment _ hsign _ ihtarget ihvalue => exact grants_assignment ihtarget hsign ihvalue
  | binary _ hsign _ ihleft ihright =>
    rw [Tree.expression_eq]
    exact ihleft.between hsign rfl ihright .binary
  | power _ hsign _ ihbase ihexponent =>
    rw [Tree.expression_eq]
    exact ihbase.between hsign rfl ihexponent .power
  | signed hsign _ ih =>
    rw [Tree.expression_eq]
    exact (Grants.token hsign rfl id).two ih .signed
  | stepped _ hsign ih =>
    rw [Tree.expression_eq]
    exact ih.two (.token hsign rfl fun hsign =>
      hsign.mono fun _ hkind => (Bool.and_eq_true_iff.mp hkind).1) .stepped
  | member _ hdot _ ihsubject ihname =>
    rw [Tree.expression_eq]
    exact ihsubject.between hdot rfl ihname .member
  | index _ hleft _ hright ihsubject ihindex =>
    rw [Tree.expression_eq]
    exact ihsubject.between hleft rfl (ihindex.two (.token hright rfl id) And.intro)
      fun hsubject hleft hrest => .index hsubject hleft hrest.1 hrest.2
  | call _ _ ihsubject iharguments =>
    rw [Tree.expression_eq]
    exact ihsubject.two iharguments .call
  | atom htoken => exact .token htoken rfl fun htoken => produces_atom htoken true
  | array hleft _ hright ih =>
    simp only [Tree.expression_eq, Tree.branch_eq]
    exact .enclosed hleft ih hright rfl rfl .array
  | parenthesized hleft _ hright ih =>
    rw [Tree.expression_eq]
    exact .enclosed hleft ih hright rfl rfl .parenthesized
  -- Parts of expressions
  | sequence _ ih =>
    rw [Tree.branch_eq]
    exact ih.one .sequence
  | argument _ ih =>
    rw [Tree.wrap_eq]
    exact ih.one .argument
  | noArguments hleft hright =>
    rw [Tree.branch_eq]
    exact (Grants.token hleft rfl id).two (.token hright rfl id) .noArguments
  | arguments hleft _ _ hright ih =>
    rw [Tree.branch_eq]
    exact .enclosed hleft ih hright rfl rfl .arguments
  | noElements => exact .here .noElements
  | skippedElement hcomma _ ih => exact (Grants.token hcomma rfl id).two ih .skippedElement
  | lastElement _ _ _ _ _ ih =>
    rw [Tree.wrap_eq]
    exact ih.one .lastElement
  | element _ _ _ _ hcomma _ ihvalue ihrest =>
    rw [Tree.wrap_eq]
    exact ihvalue.between hcomma rfl ihrest .element
  -- Statements
  | endMark hsemicolon =>
    rw [Tree.wrap_eq]
    exact .token hsemicolon rfl .endMark
  | noEndMark => exact .here (.noEndMark rfl)
  | bareDeclarator _ _ ih =>
    rw [Tree.wrap_eq]
    exact ih.one .bareDeclarator
  | declarator _ hsign _ ihname ihvalue =>
    rw [Tree.branch_eq]
    exact ihname.between hsign rfl ihvalue .declarator
  | variableStatement hmodifier _ _ ihdeclarators ihending =>
    simp only [Tree.branch_eq, Tree.wrap_eq]
    exact ((Grants.token hmodifier rfl id).two ihdeclarators And.intro).two ihending
      fun hlist hending => .variableStatement hlist.1 hlist.2 hending
  | emptyStatement hsemicolon =>
    rw [Tree.wrap_eq]
    exact .token hsemicolon rfl .emptyStatement
  | expressionStatement _ _ ihsequence ihending =>
    rw [Tree.branch_eq]
    exact ihsequence.two ihending .expressionStatement
  | noValue | noParameters => exact .here .absent
  | value _ _ _ _ _ ih | parameters _ _ ih => exact ih.one .present
  | returnStatement hkeyword _ _ ihvalue ihending =>
    rw [Tree.branch_eq]
    exact ((Grants.token hkeyword rfl id).two ihvalue And.intro).two ihending
      fun hbegin hending => .returnStatement hbegin.1 hbegin.2 hending
  | parameter _ ih =>
    rw [Tree.wrap_eq]
    exact ih.one .parameter
  | parameterList _ ih =>
    rw [Tree.branch_eq]
    exact ih.one .parameterList
  | function hkeyword _ hleft _ hright hopening _ hclosing ihname ihparameters ihelements =>
    exact grants_function hkeyword ihname hleft ihparameters hright hopening ihelements hclosing
  | block hopening _ hclosing ih =>
    simp only [Tree.branch_eq]
    exact .enclosed hopening ih hclosing rfl rfl .block
  | ifThen hkeyword hleft _ hright _ _ ihcondition ihconsequence =>
    rw [Tree.branch_eq]
    exact (Grants.headed hkeyword hleft ihcondition hright rfl rfl rfl .ifThen).two ihconsequence
      id
  | ifThenElse hkeyword hleft _ hright hreads hotherwise _ ihcondition ihconsequence
      ihalternative =>
    exact grants_ifThenElse hkeyword hleft ihcondition hright hreads ihconsequence hotherwise
      ihalternative
  | loop hkeyword hleft _ hright _ ihcondition ihbody =>
    rw [Tree.branch_eq]
    exact (Grants.headed hkeyword hleft ihcondition hright rfl rfl rfl .loop).two ihbody id
  | @statement c _ _ _ ih =>
    rw [Tree.wrap_eq]
    exact ih.one (.statement (Phrase.ofFirst_mem c.kind?))
  | sourceElement _ ih =>
    rw [Tree.wrap_eq]
    exact ih.one .sourceElement
  | sourceElements _ ih =>
    rw [Tree.branch_eq]
    exact ih.one .sourceElements
  | program _ _ ih =>
    rw [Tree.branch_eq]
    exact ih.one .program

/-- The tree of a source text is a tree of the grammar: every node has the children of its rule,
operands bind as strongly as their operators ask, and an `else` belongs to the nearest conditional
before it that lacks one. -/
theorem produces_of_parse {source : String} {tree : Tree} (h : Tree.parse source = .ok tree) :
    Produces true .program [tree] := by
  obtain ⟨c, hreads⟩ := Tree.parse_eq_ok_iff.mp h
  exact (hreads.produces (Cursor.isSpelled_ofSource source)).2

/-- The conditional is of the grammar. -/
theorem produces_of_parse_choice :
    ∃ tree, Tree.parse "if ( a ) b = c || d && e ; else ;" = .ok tree ∧
      Produces true .program [tree] := by
  obtain ⟨tree, c, hreads, -⟩ := Tree.produces_choice.exists_reads
  have hparse := Tree.parse_eq_ok_iff.mpr ⟨c, hreads⟩
  exact ⟨tree, hparse, produces_of_parse hparse⟩

end TreeScript
