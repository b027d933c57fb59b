import TreeScript.Proofs.Tree.Boundary

/-!
# Reading goes on behind a statement

What has been read stays read when more tokens follow, as long as the reader did not look at the
end of the input: it looks one token ahead and no further. At the end of the input this holds for
a statement that is over with its last token, a semicolon or a closing brace. An expression holds
neither of them, so such a statement has its end mark or its block; and only an `else` could make
more of it.

What comes after begins on a new line. For a statement this changes nothing, since a reader asks for
line breaks only behind tokens that it has taken. So the statements of two inputs that follow each
other are those of the first and then those of the second: `Reads.many_followedBy`.
-/

namespace TreeScript

open Cursor

variable {progress : Progress} {trees : List Tree}

/-! ## The tokens of a phrase -/

/-- The tokens that end a statement. -/
def Kind.closesStatement : Kind → Bool
  | mark .semicolon | mark .closeBrace => true
  | _ => false

/-- Whether statements, or the marks that end them, may stand in a phrase. -/
def Phrase.hasStatements : Phrase → Bool
  | list item | many item | optional item => item.hasStatements
  | ending | variableStatement | emptyStatement | expressionStatement | returnStatement | function
  | block | conditional | loop | statement | sourceElement | sourceElements | program => true
  | _ => false

/-- The tokens that may stand in a phrase: valid ones, which end a statement only in a phrase with
statements. -/
def Phrase.admits (phrase : Phrase) (kind : Kind) : Bool :=
  kind != .invalid && (phrase.hasStatements || !kind.closesStatement)

namespace Cursor

/-- The tokens from one cursor to another pass a test. -/
def Passes (test : Kind → Bool) (c c₁ : Cursor) : Prop :=
  ∃ taken, c.tokens = taken ++ c₁.tokens ∧ ∀ token ∈ taken, test token.kind = true

/-- No token is passed at first. -/
theorem Passes.refl (test : Kind → Bool) (c : Cursor) : c.Passes test c :=
  ⟨[], rfl, List.forall_mem_nil _⟩

section

variable {test other : Kind → Bool} {c c₁ c₂ : Cursor} {token : Token} {phrase part : Phrase}

/-- Tokens are passed one after another. -/
theorem Passes.trans (h : c.Passes test c₁) (hnext : c₁.Passes test c₂) : c.Passes test c₂ := by
  obtain ⟨taken, htokens, htaken⟩ := h
  obtain ⟨more, hmore, htest⟩ := hnext
  refine ⟨taken ++ more, ?_, List.forall_mem_append.mpr ⟨htaken, htest⟩⟩
  rw [htokens, hmore, List.append_assoc]

/-- A phrase with statements may hold every other phrase. -/
theorem Passes.within (h : c.Passes part.admits c₁) (hphrase : phrase.hasStatements = true) :
    c.Passes phrase.admits c₁ := by
  obtain ⟨taken, htokens, htaken⟩ := h
  refine ⟨taken, htokens, fun token htoken => ?_⟩
  have hvalid := (Bool.and_eq_true_iff.mp (htaken token htoken)).1
  rw [Phrase.admits, hvalid, hphrase]
  rfl

/-- Where tokens are left, some were there. -/
theorem Passes.tokens_ne_nil (h : c.Passes test c₁) (hne : c₁.tokens ≠ []) : c.tokens ≠ [] := by
  obtain ⟨taken, htokens, -⟩ := h
  rw [htokens]
  exact List.append_ne_nil_of_right_ne_nil taken hne

/-- A token is taken where there is one. -/
theorem Takes.tokens_ne_nil (h : c.Takes test token c₁) : c.tokens ≠ [] :=
  tokens_ne_nil_of_sees h.sees

/-- A token that ends no statement may stand in every phrase. -/
theorem Takes.passes (h : c.Takes test token c₁)
    (hnone : [Kind.invalid, .mark .semicolon, .mark .closeBrace].any test = false) :
    c.Passes phrase.admits c₁ := by
  cases h with
  | @intro token rest _ _ _ htest =>
    refine ⟨[token], rfl, List.forall_mem_singleton.mpr ?_⟩
    simp only [List.any_cons, List.any_nil, Bool.or_eq_false_iff] at hnone
    obtain ⟨hinvalid, hsemicolon, hbrace, -⟩ := hnone
    have hvalid : token.kind ≠ .invalid := by
      intro hkind
      rw [hkind, hinvalid] at htest
      cases htest
    have hopen : token.kind.closesStatement = false := by
      unfold Kind.closesStatement
      split
      · simp_all
      · simp_all
      · rfl
    simp [Phrase.admits, hvalid, hopen]

/-- A valid token may stand in every phrase with statements. -/
theorem Takes.passes_within (h : c.Takes test token c₁) (hvalid : test .invalid = false)
    (hphrase : phrase.hasStatements = true) : c.Passes phrase.admits c₁ := by
  cases h with
  | @intro token rest _ _ _ htest =>
    refine ⟨[token], rfl, List.forall_mem_singleton.mpr ?_⟩
    have hkind : token.kind ≠ .invalid := by
      intro hkind
      rw [hkind, hvalid] at htest
      cases htest
    simp [Phrase.admits, hkind, hphrase]

end

end Cursor

/-- The tokens that are taken for a phrase may stand in it. -/
theorem Reads.passes {phrase : Phrase} {c c₁ : Cursor} (h : Reads progress phrase c trees c₁) :
    c.Passes phrase.admits c₁ := by
  induction h with
  | oneItem _ _ ih => exact ih
  | moreItems _ hcomma _ ihtree ihrest =>
    exact ihtree.trans ((hcomma.passes rfl).trans ihrest)
  | none => exact .refl _ _
  | more _ _ _ _ ihtree ihrest => exact ihtree.trans ihrest
  | identifier hname | memberName hname => exact hname.passes rfl
  | memberWord hword => exact hword.passes rfl
  | assignable _ ih => exact ih
  | noAssignment _ _ ih => exact ih
  | assignment _ hsign _ ihtarget ihvalue =>
    exact ihtarget.trans ((hsign.passes rfl).trans ihvalue)
  | operand _ ih => exact ih
  | @binary level _ _ _ _ _ _ _ _ hsign _ ihleft ihright =>
    exact ihleft.trans ((hsign.passes (by cases level <;> decide)).trans ihright)
  | operations _ _ ih => exact ih
  | noPower _ _ ih => exact ih
  | power _ hsign _ ihbase ihexponent =>
    exact ihbase.trans ((hsign.passes rfl).trans ihexponent)
  | unsigned _ _ ih => exact ih
  | signed hsign _ ih => exact .trans (hsign.passes rfl) ih
  | noStep _ _ ih => exact ih
  | stepped _ hsign ih => exact ih.trans (hsign.passes rfl)
  | subject _ ih => exact ih
  | member _ hdot _ ihsubject ihname =>
    exact ihsubject.trans ((hdot.passes rfl).trans ihname)
  | index _ hleft _ hright ihsubject ihindex =>
    have hindex := ihindex.trans (hright.passes rfl)
    exact ihsubject.trans ((hleft.passes rfl).trans hindex)
  | call _ _ ihsubject iharguments => exact ihsubject.trans iharguments
  | accesses _ _ ih => exact ih
  | atom htoken => exact htoken.passes rfl
  | array hleft _ hright ih | parenthesized hleft _ hright ih =>
    exact .trans (hleft.passes rfl) (ih.trans (hright.passes rfl))
  | sequence _ ih => exact ih
  | argument _ ih => exact ih
  | noArguments hleft hright =>
    exact .trans (hleft.passes rfl) (hright.passes rfl)
  | arguments hleft _ _ hright ih =>
    exact .trans (hleft.passes rfl) (ih.trans (hright.passes rfl))
  | noElements => exact .refl _ _
  | skippedElement hcomma _ ih => exact .trans (hcomma.passes rfl) ih
  | lastElement _ _ _ _ _ ih => exact ih
  | element _ _ _ _ hcomma _ ihvalue ihrest =>
    exact ihvalue.trans ((hcomma.passes rfl).trans ihrest)
  | endMark hsemicolon | emptyStatement hsemicolon => exact hsemicolon.passes_within rfl rfl
  | noEndMark => exact .refl _ _
  | bareDeclarator _ _ ih => exact ih
  | declarator _ hsign _ ihname ihvalue =>
    exact ihname.trans ((hsign.passes rfl).trans ihvalue)
  | variableStatement hmodifier _ _ ihdeclarators ihending =>
    exact .trans (hmodifier.passes rfl) ((ihdeclarators.within rfl).trans ihending)
  | expressionStatement _ _ ihsequence ihending => exact (ihsequence.within rfl).trans ihending
  | noValue => exact .refl _ _
  | value _ _ _ _ _ ih => exact ih
  | returnStatement hkeyword _ _ ihvalue ihending =>
    exact .trans (hkeyword.passes rfl) ((ihvalue.within rfl).trans ihending)
  | parameter _ ih => exact ih
  | parameterList _ ih => exact ih
  | noParameters => exact .refl _ _
  | parameters _ _ ih => exact ih
  | function hkeyword _ hleft _ hright hopening _ hclosing ihname ihparameters ihelements =>
    have hbody := ihelements.trans (hclosing.passes_within rfl rfl)
    have hrest := (ihparameters.within rfl).trans ((hright.passes rfl).trans
      ((hopening.passes rfl).trans hbody))
    exact .trans (hkeyword.passes rfl)
      ((ihname.within rfl).trans ((hleft.passes rfl).trans hrest))
  | block hopening _ hclosing ih =>
    exact .trans (hopening.passes rfl) (ih.trans (hclosing.passes_within rfl rfl))
  | ifThen hkeyword hleft _ hright _ _ ihcondition ihconsequence =>
    have hrest := (ihcondition.within rfl).trans
      ((hright.passes rfl).trans ihconsequence)
    exact .trans (hkeyword.passes rfl) ((hleft.passes rfl).trans hrest)
  | ifThenElse hkeyword hleft _ hright _ hotherwise _ ihcondition ihconsequence ihalternative =>
    have helse := ihconsequence.trans ((hotherwise.passes rfl).trans ihalternative)
    have hrest := (ihcondition.within rfl).trans ((hright.passes rfl).trans helse)
    exact .trans (hkeyword.passes rfl) ((hleft.passes rfl).trans hrest)
  | loop hkeyword hleft _ hright _ ihcondition ihbody =>
    have hrest := (ihcondition.within rfl).trans ((hright.passes rfl).trans ihbody)
    exact .trans (hkeyword.passes rfl) ((hleft.passes rfl).trans hrest)
  | statement _ ih => exact ih.within rfl
  | sourceElement _ ih => exact ih
  | sourceElements _ ih => exact ih
  | program _ _ ih => exact ih

/-- Where tokens are left, there were some. -/
theorem Reads.tokens_ne_nil {phrase : Phrase} {c c₁ : Cursor} (h : Reads progress phrase c trees c₁)
    (hne : c₁.tokens ≠ []) :
    c.tokens ≠ [] :=
  h.passes.tokens_ne_nil hne

/-! ## More tokens behind -/

namespace Cursor

/-- The tokens of a cursor and behind them those of another. -/
def followedBy (c rest : Cursor) : Cursor :=
  ⟨c.tokens ++ rest.tokens, rest.endOffset, rest.newlineBeforeEnd, c.previousEnd⟩

section

variable {c c₁ rest : Cursor} {test : Kind → Bool} {token : Token}

/-- The next kind is the same. -/
theorem kind?_followedBy (h : c.tokens ≠ []) : (c.followedBy rest).kind? = c.kind? := by
  obtain ⟨_ | ⟨token, tokens⟩, endOffset, newline, previousEnd⟩ := c
  · exact absurd rfl h
  · rfl

/-- The same is seen. -/
theorem sees_followedBy (h : c.tokens ≠ []) : (c.followedBy rest).sees test = c.sees test := by
  rw [sees, kind?_followedBy h, sees]

/-- The line break is the same. -/
theorem newlineBefore_followedBy (h : c.tokens ≠ []) :
    (c.followedBy rest).newlineBefore = c.newlineBefore := by
  obtain ⟨_ | ⟨token, tokens⟩, endOffset, newline, previousEnd⟩ := c
  · exact absurd rfl h
  · rfl

/-- The start is the same. -/
theorem start_followedBy (h : c.tokens ≠ []) : (c.followedBy rest).start = c.start := by
  obtain ⟨_ | ⟨token, tokens⟩, endOffset, newline, previousEnd⟩ := c
  · exact absurd rfl h
  · rfl

/-- There are tokens. -/
theorem tokens_followedBy_ne_nil (h : c.tokens ≠ []) : (c.followedBy rest).tokens ≠ [] :=
  List.append_ne_nil_of_left_ne_nil h rest.tokens

/-- At the end of the first tokens the next one is the first of the others. -/
theorem sees_followedBy_of_nil (h : c.tokens = []) :
    (c.followedBy rest).sees test = rest.sees test := by
  unfold sees kind? followedBy
  rw [h, List.nil_append]

/-- The same token is taken. -/
theorem Takes.followedBy (h : c.Takes test token c₁) (rest : Cursor) :
    (c.followedBy rest).Takes test token (c₁.followedBy rest) := by
  cases h with
  | intro htest => exact .intro htest

end

end Cursor

/-- What has been read before a token stays read when more tokens follow that one. -/
theorem Reads.followedBy {progress : Progress} {phrase : Phrase} {c c₁ : Cursor}
    {trees : List Tree} (h : Reads progress phrase c trees c₁) (hne : c₁.tokens ≠ [])
    (rest : Cursor) :
    Reads progress phrase (c.followedBy rest) trees (c₁.followedBy rest) := by
  have hsees {c : Cursor} {test : Kind → Bool} {seen : Bool} (hne : c.tokens ≠ [])
      (h : c.sees test = seen) : (c.followedBy rest).sees test = seen :=
    (sees_followedBy hne).trans h
  induction h with
  | oneItem _ hend ih => exact .oneItem (ih hne) (hsees hne hend)
  | moreItems _ hcomma _ ihtree ihrest =>
    exact .moreItems (ihtree hcomma.tokens_ne_nil) (hcomma.followedBy rest) (ihrest hne)
  | none hend => exact .none (.inl (hsees hne (hend.resolve_right hne)))
  | more hbrace htokens _ hrest ihtree ihrest =>
    exact .more (hsees htokens hbrace) (tokens_followedBy_ne_nil htokens)
      (ihtree (hrest.tokens_ne_nil hne)) (ihrest hne)
  | identifier hname => exact .identifier (hname.followedBy rest)
  | memberName hname => exact .memberName (hname.followedBy rest)
  | memberWord hword => exact .memberWord (hword.followedBy rest)
  | assignable _ ih => exact .assignable (ih hne)
  | noAssignment _ hend ih => exact .noAssignment (ih hne) (hsees hne hend)
  | assignment _ hsign _ ihtarget ihvalue =>
    exact .assignment (ihtarget hsign.tokens_ne_nil) (hsign.followedBy rest) (ihvalue hne)
  | operand _ ih => exact .operand (ih hne)
  | binary _ hsign _ ihleft ihright =>
    exact .binary (ihleft hsign.tokens_ne_nil) (hsign.followedBy rest) (ihright hne)
  | operations _ hend ih => exact .operations (ih hne) (hsees hne hend)
  | noPower _ hend ih => exact .noPower (ih hne) (hsees hne hend)
  | power _ hsign _ ihbase ihexponent =>
    exact .power (ihbase hsign.tokens_ne_nil) (hsign.followedBy rest) (ihexponent hne)
  | unsigned hsign hoperand ih =>
    exact .unsigned (hsees (hoperand.tokens_ne_nil hne) hsign) (ih hne)
  | signed hsign _ ih => exact .signed (hsign.followedBy rest) (ih hne)
  | noStep _ hend ih =>
    refine .noStep (ih hne) ?_
    rw [newlineBefore_followedBy hne]
    exact hsees hne hend
  | @stepped c c₁ c₂ sign operand _ hsign ih =>
    have htakes := hsign.followedBy rest
    rw [← @newlineBefore_followedBy c₁ rest hsign.tokens_ne_nil] at htakes
    exact .stepped (ih hsign.tokens_ne_nil) htakes
  | subject _ ih => exact .subject (ih hne)
  | member _ hdot _ ihsubject ihname =>
    exact .member (ihsubject hdot.tokens_ne_nil) (hdot.followedBy rest) (ihname hne)
  | index _ hleft _ hright ihsubject ihindex =>
    exact .index (ihsubject hleft.tokens_ne_nil) (hleft.followedBy rest)
      (ihindex hright.tokens_ne_nil) (hright.followedBy rest)
  | call _ harguments ihsubject iharguments =>
    exact .call (ihsubject (harguments.tokens_ne_nil hne)) (iharguments hne)
  | accesses _ hend ih => exact .accesses (ih hne) (hsees hne hend)
  | atom htoken => exact .atom (htoken.followedBy rest)
  | array hleft helements hright ih =>
    have hreads := Reads.array (hleft.followedBy rest) (ih hright.tokens_ne_nil)
      (hright.followedBy rest)
    rw [start_followedBy hleft.tokens_ne_nil,
      start_followedBy (helements.tokens_ne_nil hright.tokens_ne_nil)] at hreads
    exact hreads
  | parenthesized hleft _ hright ih =>
    exact .parenthesized (hleft.followedBy rest) (ih hright.tokens_ne_nil)
      (hright.followedBy rest)
  | sequence hitems ih =>
    have hreads := Reads.sequence (ih hne)
    rw [start_followedBy (hitems.tokens_ne_nil hne)] at hreads
    exact hreads
  | argument _ ih => exact .argument (ih hne)
  | noArguments hleft hright =>
    exact .noArguments (hleft.followedBy rest) (hright.followedBy rest)
  | arguments hleft hnone hitems hright ih =>
    have htokens := hitems.tokens_ne_nil hright.tokens_ne_nil
    exact .arguments (hleft.followedBy rest) (hsees htokens hnone) (ih hright.tokens_ne_nil)
      (hright.followedBy rest)
  | noElements hend => exact .noElements (.inr (hsees hne (hend.resolve_left hne)))
  | skippedElement hcomma _ ih => exact .skippedElement (hcomma.followedBy rest) (ih hne)
  | lastElement htokens hbracket hcomma _ hlast ih =>
    exact .lastElement (tokens_followedBy_ne_nil htokens) (hsees htokens hbracket)
      (hsees htokens hcomma) (ih hne) (hsees hne hlast)
  | element htokens hbracket hcomma _ htakes _ ihvalue ihrest =>
    exact .element (tokens_followedBy_ne_nil htokens) (hsees htokens hbracket)
      (hsees htokens hcomma) (ihvalue htakes.tokens_ne_nil) (htakes.followedBy rest) (ihrest hne)
  | endMark hsemicolon => exact .endMark (hsemicolon.followedBy rest)
  | noEndMark hsemicolon hend =>
    refine .noEndMark (hsees hne hsemicolon) ?_
    rw [sees_followedBy hne, newlineBefore_followedBy hne]
    exact hend.imp_right fun hend => .inr (hend.resolve_left hne)
  | bareDeclarator _ hend ih => exact .bareDeclarator (ih hne) (hsees hne hend)
  | declarator hname hsign _ ihname ihvalue =>
    have hreads := Reads.declarator (ihname hsign.tokens_ne_nil) (hsign.followedBy rest)
      (ihvalue hne)
    rw [start_followedBy (hname.tokens_ne_nil hsign.tokens_ne_nil)] at hreads
    exact hreads
  | variableStatement hmodifier _ hending ihdeclarators ihending =>
    have hreads := Reads.variableStatement (hmodifier.followedBy rest)
      (ihdeclarators (hending.tokens_ne_nil hne)) (ihending hne)
    rw [start_followedBy hmodifier.tokens_ne_nil] at hreads
    exact hreads
  | emptyStatement hsemicolon => exact .emptyStatement (hsemicolon.followedBy rest)
  | expressionStatement hsequence hending ihsequence ihending =>
    have htokens := hending.tokens_ne_nil hne
    have hreads := Reads.expressionStatement (ihsequence htokens) (ihending hne)
    rw [start_followedBy (hsequence.tokens_ne_nil htokens)] at hreads
    exact hreads
  | noValue hend =>
    apply Reads.noValue
    rw [sees_followedBy hne, sees_followedBy hne, newlineBefore_followedBy hne]
    exact hend.imp_right fun hend => hend.imp_right fun hend => .inr (hend.resolve_left hne)
  | value hsemicolon hbrace htokens hnewline _ ih =>
    exact .value (hsees htokens hsemicolon) (hsees htokens hbrace)
      (tokens_followedBy_ne_nil htokens) ((newlineBefore_followedBy htokens).trans hnewline)
      (ih hne)
  | returnStatement hkeyword _ hending ihvalue ihending =>
    have hreads := Reads.returnStatement (hkeyword.followedBy rest)
      (ihvalue (hending.tokens_ne_nil hne)) (ihending hne)
    rw [start_followedBy hkeyword.tokens_ne_nil] at hreads
    exact hreads
  | parameter _ ih => exact .parameter (ih hne)
  | parameterList hparameters ih =>
    have hreads := Reads.parameterList (ih hne)
    rw [start_followedBy (hparameters.tokens_ne_nil hne)] at hreads
    exact hreads
  | noParameters hend => exact .noParameters (hsees hne hend)
  | parameters hend hparameters ih =>
    exact .parameters (hsees (hparameters.tokens_ne_nil hne) hend) (ih hne)
  | function hkeyword _ hleft _ hright hopening _ hclosing ihname ihparameters ihelements =>
    have hreads := Reads.function (hkeyword.followedBy rest) (ihname hleft.tokens_ne_nil)
      (hleft.followedBy rest) (ihparameters hright.tokens_ne_nil) (hright.followedBy rest)
      (hopening.followedBy rest) (ihelements hclosing.tokens_ne_nil) (hclosing.followedBy rest)
    rw [start_followedBy hkeyword.tokens_ne_nil, start_followedBy hopening.tokens_ne_nil] at hreads
    exact hreads
  | block hopening hstatements hclosing ih =>
    have hreads := Reads.block (hopening.followedBy rest) (ih hclosing.tokens_ne_nil)
      (hclosing.followedBy rest)
    rw [start_followedBy hopening.tokens_ne_nil,
      start_followedBy (hstatements.tokens_ne_nil hclosing.tokens_ne_nil)] at hreads
    exact hreads
  | ifThen hkeyword hleft _ hright _ helse ihcondition ihconsequence =>
    have hreads := Reads.ifThen (hkeyword.followedBy rest) (hleft.followedBy rest)
      (ihcondition hright.tokens_ne_nil) (hright.followedBy rest) (ihconsequence hne)
      (hsees hne helse)
    rw [start_followedBy hkeyword.tokens_ne_nil] at hreads
    exact hreads
  | ifThenElse hkeyword hleft _ hright _ hotherwise _ ihcondition ihconsequence ihalternative =>
    have hreads := Reads.ifThenElse (hkeyword.followedBy rest) (hleft.followedBy rest)
      (ihcondition hright.tokens_ne_nil) (hright.followedBy rest)
      (ihconsequence hotherwise.tokens_ne_nil) (hotherwise.followedBy rest) (ihalternative hne)
    rw [start_followedBy hkeyword.tokens_ne_nil] at hreads
    exact hreads
  | loop hkeyword hleft _ hright _ ihcondition ihbody =>
    have hreads := Reads.loop (hkeyword.followedBy rest) (hleft.followedBy rest)
      (ihcondition hright.tokens_ne_nil) (hright.followedBy rest) (ihbody hne)
    rw [start_followedBy hkeyword.tokens_ne_nil] at hreads
    exact hreads
  | @statement c _ _ hform ih =>
    have hreads := ih hne
    rw [← @kind?_followedBy c rest (hform.tokens_ne_nil hne)] at hreads
    exact .statement hreads
  | sourceElement _ ih => exact .sourceElement (ih hne)
  | sourceElements helements ih =>
    have hreads := Reads.sourceElements (ih hne)
    rw [start_followedBy (helements.tokens_ne_nil hne)] at hreads
    exact hreads
  | program _ hend => exact absurd hend hne

/-! ## Statements that are over -/

/-- The last token ends a statement. -/
def Cursor.EndsClosed (c : Cursor) : Prop :=
  ∃ token ∈ c.tokens.getLast?, token.kind.closesStatement = true

namespace Cursor

variable {c c₁ : Cursor} {test : Kind → Bool}

/-- The last token is there. -/
theorem EndsClosed.tokens_ne_nil (h : c.EndsClosed) : c.tokens ≠ [] := by
  obtain ⟨token, htoken, -⟩ := h
  exact List.ne_nil_of_mem (List.mem_of_getLast? htoken)

/-- The last token stays the last. -/
theorem EndsClosed.further (h : c.EndsClosed) (hpasses : c.Passes test c₁)
    (hne : c₁.tokens ≠ []) : c₁.EndsClosed := by
  obtain ⟨token, htoken, hcloses⟩ := h
  obtain ⟨taken, htokens, -⟩ := hpasses
  rw [htokens, List.getLast?_append, Option.or_of_isSome (List.getLast?_isSome.mpr hne)] at htoken
  exact ⟨token, htoken, hcloses⟩

/-- A phrase without statements does not end with the end of one. -/
theorem Passes.not_endsClosed {phrase : Phrase} (h : c.Passes phrase.admits c₁)
    (hphrase : phrase.hasStatements = false) (hend : c₁.tokens = []) : ¬ c.EndsClosed := by
  rintro ⟨token, htoken, hcloses⟩
  obtain ⟨taken, htokens, htaken⟩ := h
  rw [htokens, hend, List.append_nil] at htoken
  have hadmits := htaken token (List.mem_of_getLast? htoken)
  simp [Phrase.admits, hphrase, hcloses] at hadmits

end Cursor

/-- Behind a phrase without statements, a statement that is over has its end mark. -/
theorem Reads.ending_followedBy {c c₁ c₂ : Cursor} {phrase : Phrase}
    (h : Reads .done .ending c₁ trees c₂) (hclosed : c.EndsClosed)
    (hpasses : c.Passes phrase.admits c₁) (hphrase : phrase.hasStatements = false) (rest : Cursor) :
    c₁.tokens ≠ [] ∧
      Reads .done .ending (c₁.followedBy rest) trees (c₂.followedBy rest) := by
  have hne : c₁.tokens ≠ [] := fun hnil => hpasses.not_endsClosed hphrase hnil hclosed
  refine ⟨hne, ?_⟩
  cases h with
  | endMark hsemicolon => exact .endMark (hsemicolon.followedBy rest)
  | noEndMark hsemicolon hend => exact (Reads.noEndMark hsemicolon hend).followedBy hne rest

/-- Whether a phrase is one statement. -/
def Phrase.isStatement : Phrase → Bool
  | variableStatement | emptyStatement | expressionStatement | returnStatement | function | block
  | conditional | loop | statement | sourceElement => true
  | _ => false

/-- Every form is a statement. -/
theorem Phrase.isStatement_of_mem_statementForms {phrase : Phrase} (h : phrase ∈ statementForms) :
    phrase.isStatement = true := by
  revert phrase
  decide

/-- A statement that is over at the end of the input stays read when more tokens follow, unless the
first of them is an `else`. -/
theorem Reads.followedBy_of_closed {phrase : Phrase} {c c₁ : Cursor}
    (h : Reads progress phrase c trees c₁) (hstatement : phrase.isStatement = true)
    (hclosed : c.EndsClosed) (hend : c₁.tokens = []) {rest : Cursor}
    (helse : rest.sees (· == .word .elseWord) = false) :
    Reads progress phrase (c.followedBy rest) trees (c₁.followedBy rest) := by
  induction h with
  | variableStatement hmodifier hdeclarators hending =>
    have hpasses := (hmodifier.passes rfl).trans hdeclarators.passes
    obtain ⟨hne, hreadsEnding⟩ := hending.ending_followedBy hclosed hpasses rfl rest
    have hreads := Reads.variableStatement (hmodifier.followedBy rest)
      (hdeclarators.followedBy hne rest) hreadsEnding
    rw [start_followedBy hmodifier.tokens_ne_nil] at hreads
    exact hreads
  | emptyStatement hsemicolon => exact .emptyStatement (hsemicolon.followedBy rest)
  | expressionStatement hsequence hending =>
    obtain ⟨hne, hreadsEnding⟩ := hending.ending_followedBy hclosed hsequence.passes rfl rest
    have hreads := Reads.expressionStatement (hsequence.followedBy hne rest) hreadsEnding
    rw [start_followedBy hclosed.tokens_ne_nil] at hreads
    exact hreads
  | returnStatement hkeyword hvalue hending =>
    have hpasses := (hkeyword.passes rfl).trans hvalue.passes
    obtain ⟨hne, hreadsEnding⟩ := hending.ending_followedBy hclosed hpasses rfl rest
    have hreads := Reads.returnStatement (hkeyword.followedBy rest) (hvalue.followedBy hne rest)
      hreadsEnding
    rw [start_followedBy hkeyword.tokens_ne_nil] at hreads
    exact hreads
  | function hkeyword hname hleft hparameters hright hopening helements hclosing =>
    have hreads := Reads.function (hkeyword.followedBy rest)
      (hname.followedBy hleft.tokens_ne_nil rest) (hleft.followedBy rest)
      (hparameters.followedBy hright.tokens_ne_nil rest) (hright.followedBy rest)
      (hopening.followedBy rest) (helements.followedBy hclosing.tokens_ne_nil rest)
      (hclosing.followedBy rest)
    rw [start_followedBy hkeyword.tokens_ne_nil, start_followedBy hopening.tokens_ne_nil] at hreads
    exact hreads
  | block hopening hstatements hclosing =>
    have hreads := Reads.block (hopening.followedBy rest)
      (hstatements.followedBy hclosing.tokens_ne_nil rest) (hclosing.followedBy rest)
    rw [start_followedBy hopening.tokens_ne_nil,
      start_followedBy (hstatements.tokens_ne_nil hclosing.tokens_ne_nil)] at hreads
    exact hreads
  | ifThen hkeyword hleft hcondition hright hconsequence _ _ ihconsequence =>
    have hpasses := (hkeyword.passes rfl).trans ((hleft.passes rfl).trans
      (hcondition.passes.trans (hright.passes rfl)))
    have hinner := hclosed.further hpasses (tokens_ne_nil_of_sees hconsequence.begins)
    have hreads := Reads.ifThen (hkeyword.followedBy rest) (hleft.followedBy rest)
      (hcondition.followedBy hright.tokens_ne_nil rest) (hright.followedBy rest)
      (ihconsequence rfl hinner hend) ((sees_followedBy_of_nil hend).trans helse)
    rw [start_followedBy hkeyword.tokens_ne_nil] at hreads
    exact hreads
  | ifThenElse hkeyword hleft hcondition hright hconsequence hotherwise halternative _ _
      ihalternative =>
    have hpasses := (hkeyword.passes rfl).trans ((hleft.passes rfl).trans
      ((hcondition.passes.within rfl).trans ((hright.passes rfl).trans
        (hconsequence.passes.trans (hotherwise.passes rfl)))))
    have hinner := hclosed.further hpasses (tokens_ne_nil_of_sees halternative.begins)
    have hreads := Reads.ifThenElse (hkeyword.followedBy rest) (hleft.followedBy rest)
      (hcondition.followedBy hright.tokens_ne_nil rest) (hright.followedBy rest)
      (hconsequence.followedBy hotherwise.tokens_ne_nil rest) (hotherwise.followedBy rest)
      (ihalternative rfl hinner hend)
    rw [start_followedBy hkeyword.tokens_ne_nil] at hreads
    exact hreads
  | loop hkeyword hleft hcondition hright hbody _ ihbody =>
    have hpasses := (hkeyword.passes rfl).trans ((hleft.passes rfl).trans
      (hcondition.passes.trans (hright.passes rfl)))
    have hinner := hclosed.further hpasses (tokens_ne_nil_of_sees hbody.begins)
    have hreads := Reads.loop (hkeyword.followedBy rest) (hleft.followedBy rest)
      (hcondition.followedBy hright.tokens_ne_nil rest) (hright.followedBy rest)
      (ihbody rfl hinner hend)
    rw [start_followedBy hkeyword.tokens_ne_nil] at hreads
    exact hreads
  | @statement c _ _ _ ih =>
    have hform := Phrase.isStatement_of_mem_statementForms (Phrase.ofFirst_mem c.kind?)
    have hreads := ih hform hclosed hend
    rw [← @kind?_followedBy c rest hclosed.tokens_ne_nil] at hreads
    exact .statement hreads
  | sourceElement _ ih => exact .sourceElement (ih rfl hclosed hend)
  | _ => cases hstatement

/-! ## Statements on a new line -/

namespace Cursor

/-- The same tokens behind a line break. -/
def onNewLine (c : Cursor) : Cursor :=
  match c.tokens with
  | [] => { c with newlineBeforeEnd := true }
  | token :: rest => { c with tokens := { token with newlineBefore := true } :: rest }

variable (c : Cursor)

/-- The next kind is the same. -/
theorem kind?_onNewLine : c.onNewLine.kind? = c.kind? := by
  obtain ⟨_ | ⟨token, rest⟩, endOffset, newline, previousEnd⟩ := c <;> rfl

/-- The same is seen. -/
theorem sees_onNewLine (test : Kind → Bool) : c.onNewLine.sees test = c.sees test := by
  rw [sees, kind?_onNewLine, sees]

/-- The start is the same. -/
theorem start_onNewLine : c.onNewLine.start = c.start := by
  obtain ⟨_ | ⟨token, rest⟩, endOffset, newline, previousEnd⟩ := c <;> rfl

/-- The same tokens are left. -/
theorem tokens_onNewLine_eq_nil : c.onNewLine.tokens = [] ↔ c.tokens = [] := by
  obtain ⟨_ | ⟨token, rest⟩, endOffset, newline, previousEnd⟩ := c
  · exact Iff.rfl
  · exact iff_of_false (List.cons_ne_nil _ _) (List.cons_ne_nil _ _)

variable {c}

/-- The same token is taken behind a line break. -/
theorem Takes.onNewLine {c₁ : Cursor} {test : Kind → Bool} {token : Token}
    (h : c.Takes test token c₁) :
    c.onNewLine.Takes test { token with newlineBefore := true } c₁ := by
  cases h with
  | intro htest => exact .intro htest

end Cursor

/-- The phrases that a statement begins with, the whole statement among them. -/
def Phrase.beginsStatement : Phrase → Bool
  | list item => item.beginsStatement
  | expression _ | sequence => true
  | phrase => phrase.isStatement

/-- Every form begins as a statement. -/
theorem Phrase.beginsStatement_of_mem_statementForms {phrase : Phrase}
    (h : phrase ∈ statementForms) : phrase.beginsStatement = true := by
  revert phrase
  decide

/-- A statement is read in the same way behind a line break. -/
theorem Reads.onNewLine {phrase : Phrase} {c c₁ : Cursor} (h : Reads progress phrase c trees c₁)
    (hphrase : phrase.beginsStatement = true) : Reads progress phrase c.onNewLine trees c₁ := by
  induction h with
  | oneItem _ hend ih => exact .oneItem (ih hphrase) hend
  | moreItems _ hcomma hrest ih _ => exact .moreItems (ih hphrase) hcomma hrest
  | noAssignment _ hend ih => exact .noAssignment (ih rfl) hend
  | assignment _ hsign hvalue ih _ => exact .assignment (ih rfl) hsign hvalue
  | operand _ ih => exact .operand (ih rfl)
  | binary _ hsign hright ih _ => exact .binary (ih rfl) hsign hright
  | operations _ hend ih => exact .operations (ih rfl) hend
  | noPower _ hend ih => exact .noPower (ih rfl) hend
  | power _ hsign hexponent ih _ => exact .power (ih rfl) hsign hexponent
  | @unsigned c _ _ hsign _ ih => exact .unsigned ((c.sees_onNewLine _).trans hsign) (ih rfl)
  | signed hsign hoperand =>
    have hreads := Reads.signed hsign.onNewLine hoperand
    exact hreads
  | noStep _ hend ih => exact .noStep (ih rfl) hend
  | stepped _ hsign ih => exact .stepped (ih rfl) hsign
  | subject _ ih => exact .subject (ih rfl)
  | member _ hdot hname ih _ => exact .member (ih rfl) hdot hname
  | index _ hleft hindex hright ih _ => exact .index (ih rfl) hleft hindex hright
  | call _ harguments ih _ => exact .call (ih rfl) harguments
  | accesses _ hend ih => exact .accesses (ih rfl) hend
  | atom htoken =>
    have hreads := Reads.atom htoken.onNewLine
    exact hreads
  | array hleft helements hright =>
    have hreads := Reads.array hleft.onNewLine helements hright
    rw [start_onNewLine] at hreads
    exact hreads
  | parenthesized hleft hinner hright =>
    have hreads := Reads.parenthesized hleft.onNewLine hinner hright
    exact hreads
  | sequence _ ih =>
    have hreads := Reads.sequence (ih rfl)
    rw [start_onNewLine] at hreads
    exact hreads
  | variableStatement hmodifier hdeclarators hending =>
    have hreads := Reads.variableStatement hmodifier.onNewLine hdeclarators hending
    rw [start_onNewLine] at hreads
    exact hreads
  | emptyStatement hsemicolon =>
    have hreads := Reads.emptyStatement hsemicolon.onNewLine
    exact hreads
  | expressionStatement _ hending ih _ =>
    have hreads := Reads.expressionStatement (ih rfl) hending
    rw [start_onNewLine] at hreads
    exact hreads
  | returnStatement hkeyword hvalue hending =>
    have hreads := Reads.returnStatement hkeyword.onNewLine hvalue hending
    rw [start_onNewLine] at hreads
    exact hreads
  | function hkeyword hname hleft hparameters hright hopening helements hclosing =>
    have hreads := Reads.function hkeyword.onNewLine hname hleft hparameters hright hopening
      helements hclosing
    rw [start_onNewLine] at hreads
    exact hreads
  | block hopening hstatements hclosing =>
    have hreads := Reads.block hopening.onNewLine hstatements hclosing
    rw [start_onNewLine] at hreads
    exact hreads
  | ifThen hkeyword hleft hcondition hright hconsequence helse =>
    have hreads := Reads.ifThen hkeyword.onNewLine hleft hcondition hright hconsequence helse
    rw [start_onNewLine] at hreads
    exact hreads
  | ifThenElse hkeyword hleft hcondition hright hconsequence hotherwise halternative =>
    have hreads := Reads.ifThenElse hkeyword.onNewLine hleft hcondition hright hconsequence
      hotherwise halternative
    rw [start_onNewLine] at hreads
    exact hreads
  | loop hkeyword hleft hcondition hright hbody =>
    have hreads := Reads.loop hkeyword.onNewLine hleft hcondition hright hbody
    rw [start_onNewLine] at hreads
    exact hreads
  | @statement c _ _ _ ih =>
    have hform := Phrase.beginsStatement_of_mem_statementForms (Phrase.ofFirst_mem c.kind?)
    have hreads := ih hform
    rw [← c.kind?_onNewLine] at hreads
    exact .statement hreads
  | sourceElement _ ih => exact .sourceElement (ih rfl)
  | _ => cases hphrase

/-! ## Statements one after the other -/

/-- Statements are read in the same way behind a line break. -/
theorem Reads.many_onNewLine {c c₁ : Cursor} (h : Reads .done (.many .sourceElement) c trees c₁)
    (hend : c₁.tokens = []) :
    ∃ last, Reads .done (.many .sourceElement) c.onNewLine trees last ∧ last.tokens = [] := by
  cases h with
  | none hnone =>
    have htokens := c.tokens_onNewLine_eq_nil.mpr hend
    exact ⟨c.onNewLine, .none (.inr htokens), htokens⟩
  | more hbrace htokens hfirst hrest =>
    refine ⟨c₁, .more ((c.sees_onNewLine _).trans hbrace) ?_ (hfirst.onNewLine rfl) hrest, hend⟩
    exact mt c.tokens_onNewLine_eq_nil.mp htokens

/-- Behind statements that are over, more statements are read after them. -/
theorem Reads.many_followedBy {c c₁ rest last : Cursor} {trees later : List Tree}
    (h : Reads .done (.many .sourceElement) c trees c₁) (hend : c₁.tokens = [])
    (hclosed : c.tokens ≠ [] → c.EndsClosed) (hprevious : c₁.previousEnd = rest.previousEnd)
    (hrest : Reads .done (.many .sourceElement) rest later last) :
    Reads .done (.many .sourceElement) (c.followedBy rest) (trees ++ later) last := by
  have helse : rest.sees (· == .word .elseWord) = false := hrest.sees_else_of_many (by decide)
  induction trees generalizing c with
  | nil =>
    cases h with
    | none =>
      have hsame : c₁.followedBy rest = rest := by
        rw [Cursor.followedBy, hend, hprevious]
        rfl
      rw [hsame]
      exact hrest
  | cons tree trees ih =>
    cases h with
    | @more _ _ c₂ _ _ _ hbrace htokens hfirst hmore =>
      have hread : Reads .done .sourceElement (c.followedBy rest) [tree] (c₂.followedBy rest) := by
        by_cases hnil : c₂.tokens = []
        · exact hfirst.followedBy_of_closed rfl (hclosed htokens) hnil helse
        · exact hfirst.followedBy hnil rest
      refine .more ((sees_followedBy htokens).trans hbrace) (tokens_followedBy_ne_nil htokens) hread
        (ih hmore fun hne => ?_)
      exact (hclosed htokens).further hfirst.passes hne

end TreeScript
