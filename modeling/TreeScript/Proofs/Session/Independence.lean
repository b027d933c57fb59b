import TreeScript.Proofs.Lowering.Placement
import TreeScript.Proofs.Tree.Layout
import TreeScript.Proofs.Tree.Pursuit
import TreeScript.Session

/-!
# Layout matters only through line breaks

Blanks, comments and places do not change what a source text means, except that a line break
before a token may end a statement. Two source texts with the same kinds, texts and line breaks of
their tokens are read to the same tree up to spans, or refused for the same reason; and they are
compiled to the same program, or rejected for the same reason.

A derivation stays one when every span in it is forgotten, so both texts share the derivation
without spans. Where a text is refused, the agenda that its reader pursues shares its run with that
of the other.
-/

namespace TreeScript

open Agenda

open TreeScript.Tree (wrap branch expression allWithoutSpans)

/-! ## Trees without spans -/

namespace Tree

/-- A node is built the same way without spans. -/
theorem withoutSpans_branch_eq (rule : Rule) (children : List Tree) (anchor : Nat) :
    (branch rule children anchor).withoutSpans = branch rule (allWithoutSpans children) 0 := by
  have hspans : reach (allWithoutSpans children) 0 = Span.point 0 := by
    unfold reach
    split
    · rename_i first last hfirst hlast
      rw [allWithoutSpans_eq_map] at hfirst hlast
      obtain ⟨firstTree, -, rfl⟩ := List.mem_map.mp (List.mem_of_head? hfirst)
      obtain ⟨lastTree, -, rfl⟩ := List.mem_map.mp (List.mem_of_getLast? hlast)
      rw [span_withoutSpans, span_withoutSpans]
      rfl
    · rfl
  rw [withoutSpans_branch, branch_eq, hspans]

/-- Wrapped trees keep their shape. -/
theorem withoutSpans_wrap_eq (rule : Rule) (child : Tree) :
    (wrap rule child).withoutSpans = wrap rule child.withoutSpans := by
  rw [wrap, wrap, withoutSpans_branch_eq, span_withoutSpans]
  rfl

/-- Expressions keep their shape. -/
theorem withoutSpans_expression_eq (parts : List Tree) :
    (expression parts).withoutSpans = expression (allWithoutSpans parts) :=
  withoutSpans_branch_eq .singleExpression parts 0

/-- Atoms keep their shape. -/
theorem withoutSpans_atom (token : Tree) : (atom token).withoutSpans = atom token.withoutSpans := by
  unfold atom
  rw [category?_withoutSpans]
  split <;> simp only [withoutSpans_expression_eq, withoutSpans_wrap_eq, allWithoutSpans]

end Tree

/-! ## Cursors without spans -/

/-- A token at the beginning of the text. -/
def Token.withoutSpan (token : Token) : Token := { token with span := Span.point 0 }

/-- Operators of assignment keep their shape. -/
theorem Token.withoutSpans_assignmentOperator (sign : Token) :
    sign.assignmentOperator.withoutSpans = sign.withoutSpan.assignmentOperator := by
  unfold Token.assignmentOperator
  change _ = if sign.kind = .mark .assign then _ else _
  split
  · rfl
  · exact Tree.withoutSpans_wrap_eq .assignmentOperator sign.leaf

namespace Cursor

/-- A cursor over the same tokens, with every place at the beginning of the text. -/
def withoutSpans (cursor : Cursor) : Cursor :=
  ⟨cursor.tokens.map Token.withoutSpan, 0, cursor.newlineBeforeEnd, 0⟩

variable (c : Cursor)

/-- The next kind is the same. -/
theorem kind?_withoutSpans : c.withoutSpans.kind? = c.kind? := by
  obtain ⟨_ | ⟨token, rest⟩, endOffset, newline, previousEnd⟩ := c <;> rfl

/-- The same is seen. -/
theorem sees_withoutSpans (test : Kind → Bool) : c.withoutSpans.sees test = c.sees test := by
  rw [sees, kind?_withoutSpans, sees]

/-- Line breaks stay. -/
theorem newlineBefore_withoutSpans : c.withoutSpans.newlineBefore = c.newlineBefore := by
  obtain ⟨_ | ⟨token, rest⟩, endOffset, newline, previousEnd⟩ := c <;> rfl

/-- Tokens stay. -/
theorem tokens_withoutSpans_eq_nil : c.withoutSpans.tokens = [] ↔ c.tokens = [] :=
  List.map_eq_nil_iff

/-- All is at the beginning. -/
theorem start_withoutSpans : c.withoutSpans.start = 0 := by
  obtain ⟨_ | ⟨token, rest⟩, endOffset, newline, previousEnd⟩ := c <;> rfl

variable {c}

/-- The same token is taken without its span. -/
theorem Takes.withoutSpans {test : Kind → Bool} {c₁ : Cursor} {token : Token}
    (h : c.Takes test token c₁) :
    c.withoutSpans.Takes test token.withoutSpan c₁.withoutSpans := by
  cases h with
  | intro hkind => exact .intro hkind

/-- Cursors without spans agree when the same is seen from them. -/
theorem withoutSpans_eq_of_views {other : Cursor} (h : c.views = other.views) :
    c.withoutSpans = other.withoutSpans := by
  obtain ⟨htokens, hends⟩ := List.append_inj' h rfl
  have hnewline : c.newlineBeforeEnd = other.newlineBeforeEnd := by simpa using hends
  have hbare (tokens : List Token) : tokens.map Token.withoutSpan =
      (tokens.map Token.view).map fun view =>
        ⟨view.kind?.getD .invalid, view.text, Span.point 0, view.newlineBefore⟩ := by
    rw [List.map_map]
    rfl
  rw [withoutSpans, withoutSpans, hbare, hbare, htokens, hnewline]

end Cursor

open Cursor

/-! ## Derivations without spans -/

section

variable {progress : Progress} {phrase : Phrase} {c c₁ anchor : Cursor} {rule : Rule}

/-- A wrapped tree is read. -/
theorem Reads.withoutSpans_wrap {child : Tree}
    (h : Reads progress phrase c [wrap rule child.withoutSpans] c₁) :
    Reads progress phrase c (allWithoutSpans [wrap rule child]) c₁ := by
  rw [allWithoutSpans, Tree.withoutSpans_wrap_eq]
  exact h

/-- An expression is read. -/
theorem Reads.withoutSpans_expression {parts : List Tree}
    (h : Reads progress phrase c [expression (allWithoutSpans parts)] c₁) :
    Reads progress phrase c (allWithoutSpans [expression parts]) c₁ := by
  rw [allWithoutSpans, Tree.withoutSpans_expression_eq]
  exact h

/-- A node with no anchor is read. -/
theorem Reads.withoutSpans_branch_zero {children : List Tree} {offset : Nat}
    (h : Reads progress phrase c [branch rule (allWithoutSpans children) 0] c₁) :
    Reads progress phrase c (allWithoutSpans [branch rule children offset]) c₁ := by
  rw [allWithoutSpans, Tree.withoutSpans_branch_eq]
  exact h

/-- A node is read. -/
theorem Reads.withoutSpans_branch {children : List Tree} {offset : Nat}
    (h : Reads progress phrase c
      [branch rule (allWithoutSpans children) anchor.withoutSpans.start] c₁) :
    Reads progress phrase c (allWithoutSpans [branch rule children offset]) c₁ := by
  rw [start_withoutSpans] at h
  exact h.withoutSpans_branch_zero

end

/-- What is read is read without spans, too. -/
theorem Reads.withoutSpans {progress : Progress} {phrase : Phrase} {c c₁ : Cursor}
    {trees : List Tree} (h : Reads progress phrase c trees c₁) :
    Reads progress phrase c.withoutSpans (allWithoutSpans trees) c₁.withoutSpans := by
  have hsees {c : Cursor} {test : Kind → Bool} {seen : Bool} (h : c.sees test = seen) :
      c.withoutSpans.sees test = seen := (c.sees_withoutSpans test).trans h
  have hne {c : Cursor} (h : c.tokens ≠ []) : c.withoutSpans.tokens ≠ [] :=
    mt c.tokens_withoutSpans_eq_nil.mp h
  induction h with
  | oneItem _ hend ih => exact .oneItem ih (hsees hend)
  | moreItems _ hcomma _ ihtree ihrest => exact .moreItems ihtree hcomma.withoutSpans ihrest
  | none hend =>
    apply Reads.none
    rw [sees_withoutSpans, tokens_withoutSpans_eq_nil]
    exact hend
  | more hbrace htokens _ _ ihtree ihrest =>
    exact .more (hsees hbrace) (hne htokens) ihtree ihrest
  | identifier hname => exact .withoutSpans_wrap (.identifier hname.withoutSpans)
  | memberName hname =>
    apply Reads.withoutSpans_wrap
    rw [Tree.withoutSpans_wrap_eq]
    exact .memberName hname.withoutSpans
  | memberWord hword => exact .withoutSpans_wrap (.memberWord hword.withoutSpans)
  | assignable _ ih => exact .withoutSpans_wrap (.assignable ih)
  | noAssignment _ hend ih => exact .noAssignment ih (hsees hend)
  | assignment _ hsign _ ihtarget ihvalue =>
    apply Reads.withoutSpans_expression
    simp only [allWithoutSpans, Token.withoutSpans_assignmentOperator]
    exact .assignment ihtarget hsign.withoutSpans ihvalue
  | operand _ ih => exact .operand ih
  | binary _ hsign _ ihleft ihright =>
    exact .withoutSpans_expression (.binary ihleft hsign.withoutSpans ihright)
  | operations _ hend ih => exact .operations ih (hsees hend)
  | noPower _ hend ih => exact .noPower ih (hsees hend)
  | power _ hsign _ ihbase ihexponent =>
    exact .withoutSpans_expression (.power ihbase hsign.withoutSpans ihexponent)
  | unsigned hsign _ ih => exact .unsigned (hsees hsign) ih
  | signed hsign _ ih => exact .withoutSpans_expression (.signed hsign.withoutSpans ih)
  | noStep _ hend ih =>
    refine .noStep ih ?_
    rw [newlineBefore_withoutSpans]
    exact hsees hend
  | @stepped c c₁ c₂ sign operand _ hsign ih =>
    have htakes := hsign.withoutSpans
    rw [← c₁.newlineBefore_withoutSpans] at htakes
    exact .withoutSpans_expression (.stepped ih htakes)
  | subject _ ih => exact .subject ih
  | member _ hdot _ ihsubject ihname =>
    exact .withoutSpans_expression (.member ihsubject hdot.withoutSpans ihname)
  | index _ hleft _ hright ihsubject ihindex =>
    exact .withoutSpans_expression
      (.index ihsubject hleft.withoutSpans ihindex hright.withoutSpans)
  | call _ _ ihsubject iharguments =>
    exact .withoutSpans_expression (.call ihsubject iharguments)
  | accesses _ hend ih => exact .accesses ih (hsees hend)
  | atom htoken =>
    rw [allWithoutSpans, Tree.withoutSpans_atom]
    exact .atom htoken.withoutSpans
  | array hleft _ hright ih =>
    have hreads := Reads.array hleft.withoutSpans ih hright.withoutSpans
    simp only [start_withoutSpans] at hreads
    apply Reads.withoutSpans_expression
    simp only [allWithoutSpans, Tree.withoutSpans_branch_eq]
    exact hreads
  | parenthesized hleft _ hright ih =>
    exact .withoutSpans_expression (.parenthesized hleft.withoutSpans ih hright.withoutSpans)
  | sequence _ ih => exact .withoutSpans_branch (.sequence ih)
  | argument _ ih => exact .withoutSpans_wrap (.argument ih)
  | noArguments hleft hright =>
    exact .withoutSpans_branch_zero (.noArguments hleft.withoutSpans hright.withoutSpans)
  | arguments hleft hnone _ hright ih =>
    apply Reads.withoutSpans_branch_zero
    rw [Tree.allWithoutSpans_append]
    exact .arguments hleft.withoutSpans (hsees hnone) ih hright.withoutSpans
  | noElements hend =>
    apply Reads.noElements
    rw [sees_withoutSpans, tokens_withoutSpans_eq_nil]
    exact hend
  | skippedElement hcomma _ ih => exact .skippedElement hcomma.withoutSpans ih
  | lastElement htokens hbracket hcomma _ hlast ih =>
    exact .withoutSpans_wrap
      (.lastElement (hne htokens) (hsees hbracket) (hsees hcomma) ih (hsees hlast))
  | element htokens hbracket hcomma _ htakes _ ihvalue ihrest =>
    rw [allWithoutSpans, Tree.withoutSpans_wrap_eq]
    exact .element (hne htokens) (hsees hbracket) (hsees hcomma) ihvalue htakes.withoutSpans ihrest
  | endMark hsemicolon => exact .withoutSpans_wrap (.endMark hsemicolon.withoutSpans)
  | noEndMark hsemicolon hend =>
    refine .withoutSpans_branch_zero (.noEndMark (hsees hsemicolon) ?_)
    simp only [sees_withoutSpans, tokens_withoutSpans_eq_nil, newlineBefore_withoutSpans]
    exact hend
  | bareDeclarator _ hend ih => exact .withoutSpans_wrap (.bareDeclarator ih (hsees hend))
  | declarator _ hsign _ ihname ihvalue =>
    exact .withoutSpans_branch (.declarator ihname hsign.withoutSpans ihvalue)
  | variableStatement hmodifier _ _ ihdeclarators ihending =>
    have hreads := Reads.variableStatement hmodifier.withoutSpans ihdeclarators ihending
    simp only [start_withoutSpans] at hreads
    simp only [allWithoutSpans, Tree.withoutSpans_branch_eq, Tree.withoutSpans_wrap_eq]
    exact hreads
  | emptyStatement hsemicolon => exact .withoutSpans_wrap (.emptyStatement hsemicolon.withoutSpans)
  | expressionStatement _ _ ihsequence ihending =>
    exact .withoutSpans_branch (.expressionStatement ihsequence ihending)
  | noValue hend =>
    apply Reads.noValue
    simp only [sees_withoutSpans, tokens_withoutSpans_eq_nil, newlineBefore_withoutSpans]
    exact hend
  | @value c c₁ sequence hsemicolon hbrace htokens hnewline _ ih =>
    exact .value (hsees hsemicolon) (hsees hbrace) (hne htokens)
      (c.newlineBefore_withoutSpans.trans hnewline) ih
  | returnStatement hkeyword _ _ ihvalue ihending =>
    apply Reads.withoutSpans_branch
    rw [Tree.allWithoutSpans_append]
    exact .returnStatement hkeyword.withoutSpans ihvalue ihending
  | parameter _ ih => exact .withoutSpans_wrap (.parameter ih)
  | parameterList _ ih => exact .withoutSpans_branch (.parameterList ih)
  | noParameters hend => exact .noParameters (hsees hend)
  | parameters hend _ ih => exact .parameters (hsees hend) ih
  | function hkeyword _ hleft _ hright hopening _ hclosing ihname ihparameters ihelements =>
    have hreads := Reads.function hkeyword.withoutSpans ihname hleft.withoutSpans ihparameters
      hright.withoutSpans hopening.withoutSpans ihelements hclosing.withoutSpans
    simp only [start_withoutSpans] at hreads
    simp only [allWithoutSpans, Tree.withoutSpans_branch_eq, Tree.allWithoutSpans_append]
    exact hreads
  | block hopening _ hclosing ih =>
    have hreads := Reads.block hopening.withoutSpans ih hclosing.withoutSpans
    simp only [start_withoutSpans] at hreads
    simp only [allWithoutSpans, Tree.withoutSpans_branch_eq]
    exact hreads
  | ifThen hkeyword hleft _ hright _ helse ihcondition ihconsequence =>
    exact .withoutSpans_branch (.ifThen hkeyword.withoutSpans hleft.withoutSpans ihcondition
      hright.withoutSpans ihconsequence (hsees helse))
  | ifThenElse hkeyword hleft _ hright _ hotherwise _ ihcondition ihconsequence ihalternative =>
    exact .withoutSpans_branch (.ifThenElse hkeyword.withoutSpans hleft.withoutSpans ihcondition
      hright.withoutSpans ihconsequence hotherwise.withoutSpans ihalternative)
  | loop hkeyword hleft _ hright _ ihcondition ihbody =>
    exact .withoutSpans_branch (.loop hkeyword.withoutSpans hleft.withoutSpans ihcondition
      hright.withoutSpans ihbody)
  | @statement c c₁ tree _ ih =>
    rw [← c.kind?_withoutSpans] at ih
    exact .withoutSpans_wrap (.statement ih)
  | sourceElement _ ih => exact .withoutSpans_wrap (.sourceElement ih)
  | sourceElements _ ih => exact .withoutSpans_branch (.sourceElements ih)
  | program _ hend ih =>
    exact .withoutSpans_branch_zero (.program ih ((tokens_withoutSpans_eq_nil _).mpr hend))

/-! ## Errors without places -/

/-- The error with its place at the beginning of the text. -/
def SyntaxError.unplaced (error : SyntaxError) : SyntaxError := { error with position := ⟨1, 1⟩ }

/-- Only the end of a message tells the place. -/
theorem SyntaxError.message_eq (error : SyntaxError) :
    error.message =
      error.unplaced.complaint ++ s!" at {error.position.line}:{error.position.column}" := by
  change toString error.complaint ++ toString " at " ++ _ ++ _ ++ _ = _
  simp only [String.append_assoc]
  rfl

/-- The error with its place at the beginning of the text. -/
def Error.unplaced : Error → Error
  | unparsable error => unparsable error.unplaced
  | rejected error => rejected error.unplaced
  | failed fault => failed fault
  | unreadable path problem => unreadable path problem

/-! ## Source texts -/

section

variable {source other : String}

/-- A source text is read from its tokens without spans, too. -/
theorem gives_withoutSpans {tree : Tree} (h : Tree.parse source = .ok tree) :
    ∃ c, Gives (Cursor.ofSource source).withoutSpans.readProgram tree.withoutSpans c := by
  obtain ⟨c, hreads⟩ := Tree.parse_eq_ok_iff.mp h
  exact ⟨c.withoutSpans, hreads.withoutSpans.given⟩

/-- Source texts whose tokens look the same are read the same, up to places. -/
theorem parse_eq_of_views
    (h : (TokenStream.ofSource source).views = (TokenStream.ofSource other).views) :
    ((Tree.parse source).map Tree.withoutSpans).mapError SyntaxError.unplaced =
      ((Tree.parse other).map Tree.withoutSpans).mapError SyntaxError.unplaced := by
  cases hsource : Tree.parse source with
  | ok tree =>
    have haccepts := accepts_of_parse hsource
    rw [h] at haccepts
    cases hother : Tree.parse other with
    | ok otherTree =>
      have hcursors : (Cursor.ofSource source).withoutSpans =
          (Cursor.ofSource other).withoutSpans := withoutSpans_eq_of_views h
      have hgives := gives_withoutSpans hsource
      rw [hcursors] at hgives
      obtain ⟨c, hbelow, hread⟩ := hgives
      obtain ⟨otherCursor, hotherBelow, hreadOther⟩ := gives_withoutSpans hother
      have hsame : tree.withoutSpans = otherTree.withoutSpans :=
        congrArg Reading.value (Except.ok.inj (hread.symm.trans hreadOther))
      exact congrArg Except.ok hsame
    | error refusal =>
      obtain ⟨taken, view, hrefuses, -⟩ := refuses_of_parse hother
      exact absurd haccepts hrefuses.not_accepts
  | error error =>
    obtain ⟨taken, view, hrefuses, hfound, -⟩ := refuses_of_parse hsource
    rw [h] at hrefuses
    cases hother : Tree.parse other with
    | ok tree => exact absurd (accepts_of_parse hother) hrefuses.not_accepts
    | error refusal =>
      obtain ⟨otherTaken, otherView, hrefusesOther, hfoundOther, -⟩ := refuses_of_parse hother
      obtain ⟨-, rfl, hexpected⟩ := hrefuses.unique hrefusesOther
      have hsame : error.unplaced = refusal.unplaced := by
        rw [SyntaxError.unplaced, SyntaxError.unplaced, hexpected, hfound, hfoundOther]
      exact congrArg Except.error hsame

/-- Source texts whose tokens look the same are compiled the same, up to places. -/
theorem Program.ofSource_eq_of_views
    (h : (TokenStream.ofSource source).views = (TokenStream.ofSource other).views) :
    (Program.ofSource source).mapError Error.unplaced =
      (Program.ofSource other).mapError Error.unplaced := by
  have hsplit (text : String) : (Program.ofSource text).mapError Error.unplaced =
      (((Tree.parse text).map Tree.withoutSpans).mapError SyntaxError.unplaced).mapError
          Error.unparsable >>=
        fun tree => (Program.ofTree tree).mapError Error.rejected := by
    unfold Program.ofSource
    cases Tree.parse text with
    | error error => rfl
    | ok tree =>
      change ((Program.ofTree tree).mapError Error.rejected).mapError Error.unplaced =
        (Program.ofTree tree.withoutSpans).mapError Error.rejected
      rw [Program.ofTree_withoutSpans]
      cases Program.ofTree tree <;> rfl
  rw [hsplit, hsplit, parse_eq_of_views h]

end

/-- What is read from a source text depends on the kinds, texts and line breaks of its tokens alone.
Where these are the same, both texts give one tree up to spans, or both are refused with messages
that differ only in the line and column at their end; and both give one program, or both are
rejected with errors that differ only in their spans. -/
theorem meaning_independent_of_layout {source other : String}
    (h : (TokenStream.ofSource source).views = (TokenStream.ofSource other).views) :
    ((Tree.parse source).map Tree.withoutSpans).mapError SyntaxError.unplaced =
        ((Tree.parse other).map Tree.withoutSpans).mapError SyntaxError.unplaced ∧
      (∀ error refusal, Tree.parse source = .error error → Tree.parse other = .error refusal →
        ∃ complaint,
          error.message = complaint ++ s!" at {error.position.line}:{error.position.column}" ∧
          refusal.message =
            complaint ++ s!" at {refusal.position.line}:{refusal.position.column}") ∧
      (Program.ofSource source).mapError Error.unplaced =
        (Program.ofSource other).mapError Error.unplaced := by
  have hparse := parse_eq_of_views h
  refine ⟨hparse, fun error refusal herror hrefusal => ?_, Program.ofSource_eq_of_views h⟩
  rw [herror, hrefusal] at hparse
  have hsame : error.unplaced = refusal.unplaced := Except.error.inj hparse
  refine ⟨error.unplaced.complaint, error.message_eq, ?_⟩
  rw [hsame]
  exact refusal.message_eq

/-- A comment and a tab in the place of a line feed. -/
theorem meaning_independent_of_layout_comment :
    (TokenStream.ofSource "a\nb").views = (TokenStream.ofSource "a // c\n\tb").views ∧
      (∃ tree other, Tree.parse "a\nb" = .ok tree ∧ Tree.parse "a // c\n\tb" = .ok other ∧
        tree.withoutSpans = other.withoutSpans) ∧
      (Program.ofSource "a\nb").mapError Error.unplaced =
        (Program.ofSource "a // c\n\tb").mapError Error.unplaced := by
  let views : List TokenView :=
    [⟨some .name, "a", false⟩, ⟨some .name, "b", true⟩, ⟨none, "", false⟩]
  have hlast : Scan.lexeme 'b' [] = ⟨.name, "b".toList, []⟩ := by decide
  have hviews : (TokenStream.ofSource "a\nb").views = views := by
    have hfirst : Scan.lexeme 'a' "\nb".toList = ⟨.name, "a".toList, "\nb".toList⟩ := by decide
    rw [TokenStream.ofSource, Scan.scanFrom_of_lexeme rfl hfirst, Scan.scanFrom_of_lexeme rfl hlast,
      Scan.scanFrom_nil]
    rfl
  have hother : (TokenStream.ofSource "a // c\n\tb").views = views := by
    have hfirst : Scan.lexeme 'a' " // c\n\tb".toList =
        ⟨.name, "a".toList, " // c\n\tb".toList⟩ := by decide
    have hgap : Scan.skipGap .between " // c\n\tb".toList =
        ⟨" // c\n\t".toList, true, ['b']⟩ := by decide
    rw [TokenStream.ofSource, Scan.scanFrom_of_lexeme rfl hfirst,
      Scan.scanFrom_of_lexeme hgap hlast, Scan.scanFrom_nil]
    rfl
  have haccepts : Accepts views := ⟨⟨none, "", false⟩, rfl, leads_after 80 ⟨[], views⟩⟩
  obtain ⟨tree, htree⟩ := exists_parse_of_accepts (hviews ▸ haccepts)
  obtain ⟨otherTree, hotherTree⟩ := exists_parse_of_accepts (hother ▸ haccepts)
  have hsame := hviews.trans hother.symm
  obtain ⟨hparse, -, hprogram⟩ := meaning_independent_of_layout hsame
  rw [htree, hotherTree] at hparse
  exact ⟨hsame, ⟨tree, otherTree, htree, hotherTree, Except.ok.inj hparse⟩, hprogram⟩

end TreeScript
