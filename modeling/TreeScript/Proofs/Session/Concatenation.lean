import TreeScript.Proofs.Lowering.Composition
import TreeScript.Proofs.Session.Independence
import TreeScript.Proofs.Surface.Correspondence
import TreeScript.Proofs.Token.Concatenation
import TreeScript.Proofs.Tree.Concatenation

/-!
# Source texts one after the other

A source text whose last statement is over can be followed by any other on a new line: the whole is
read, its elements are those of the first text and then those of the second, and it is compiled to
the operations of the first and then those of the second. The scanner, the reader and the compiler
each leave a finished statement alone.

Places differ between a text by itself and as part of another, so trees are compared without spans,
and the derivation of the whole is put together from derivations without spans.
-/

namespace TreeScript

open Agenda Cursor

open TreeScript.Tree (branch allWithoutSpans)

variable {source : String} {tree : Tree}

/-! ## Cursors of streams -/

namespace Cursor

/-- Views have no spans. -/
theorem views_withoutSpans (c : Cursor) : c.withoutSpans.views = c.views := by
  unfold views withoutSpans
  rw [List.map_map]
  rfl

/-- A line break does not depend on spans. -/
theorem withoutSpans_onNewLine (stream : TokenStream) :
    (ofStream stream.onNewLine).withoutSpans = (ofStream stream).withoutSpans.onNewLine := by
  obtain ⟨_ | ⟨token, rest⟩, endOffset, newline⟩ := stream <;> rfl

/-- Nor does what follows. -/
theorem withoutSpans_followedBy (stream later : TokenStream) :
    (ofStream (stream.followedBy later)).withoutSpans =
      (ofStream stream).withoutSpans.followedBy (ofStream later).withoutSpans := by
  simp [ofStream, withoutSpans, TokenStream.followedBy, followedBy]

/-- A line break moves nothing. -/
theorem previousEnd_onNewLine (c : Cursor) : c.onNewLine.previousEnd = c.previousEnd := by
  obtain ⟨_ | ⟨token, rest⟩, endOffset, newline, previousEnd⟩ := c <;> rfl

/-- The last token is the same without spans. -/
theorem EndsClosed.withoutSpans {c : Cursor} (h : c.EndsClosed) : c.withoutSpans.EndsClosed := by
  obtain ⟨token, htoken, hcloses⟩ := h
  refine ⟨token.withoutSpan, ?_, hcloses⟩
  rw [Cursor.withoutSpans, List.getLast?_map]
  exact Option.mem_map_of_mem Token.withoutSpan htoken

end Cursor

/-! ## Elements of programs -/

/-- What is read from a source text are the elements of a program. -/
theorem exists_elements_of_parse (h : Tree.parse source = .ok tree) :
    ∃ elements spans c, tree = .ofElements elements spans ∧ c.tokens = [] ∧
      Reads .done (.many .sourceElement) (Cursor.ofSource source) elements c := by
  obtain ⟨c, hprogram⟩ := Tree.parse_eq_ok_iff.mp h
  cases hprogram with
  | program hlist hend =>
    cases hlist with
    | @sourceElements _ _ elements helements =>
      rw [Tree.branch_eq, Tree.branch_eq]
      exact ⟨elements, (_, _, _), c, rfl, hend, helements⟩

/-- A program that is read makes up a program. -/
theorem accepts_of_reads {c c₁ : Cursor} (h : Reads .done .program c [tree] c₁) :
    Accepts c.views := by
  have hend : c₁.tokens = [] := h.stops
  have hlast : c₁.views = [⟨none, "", c₁.newlineBeforeEnd⟩] := by
    rw [Cursor.views, hend]
    rfl
  obtain ⟨hbelow, hread⟩ : Gives c.readProgram tree c₁ := h.given
  have hpursues := c.pursues_readProgram
  rw [hread] at hpursues
  cases hpursues with
  | ok _ hleads =>
    rw [hlast] at hleads
    exact ⟨_, rfl, hleads⟩

/-- A source text whose tokens without spans make up a program is read as that program. -/
theorem exists_parse_of_reads {c : Cursor}
    (h : Reads .done .program (Cursor.ofSource source).withoutSpans [tree] c) :
    ∃ read, Tree.parse source = .ok read ∧ read.withoutSpans = tree := by
  have haccepts := accepts_of_reads h
  rw [views_withoutSpans] at haccepts
  obtain ⟨read, hparse⟩ := exists_parse_of_accepts haccepts
  obtain ⟨last, hbelow, hread⟩ := gives_withoutSpans hparse
  obtain ⟨hwhole, hgiven⟩ : Gives _ tree c := h.given
  exact ⟨read, hparse, congrArg Reading.value (Except.ok.inj (hread.symm.trans hgiven))⟩

/-- Programs keep their shape without spans. -/
theorem Tree.withoutSpans_ofElements (elements : List Tree) (spans : Span × Span × Span) :
    (ofElements elements spans).withoutSpans =
      .ofElements (allWithoutSpans elements) (Span.point 0, Span.point 0, Span.point 0) := rfl

section

variable {first second : String} {elements laters : List Tree} {c c' : Cursor}

/-- Behind a source text whose last statement is over, another one is read on a new line. -/
theorem exists_parse_append
    (hfirst : Reads .done (.many .sourceElement) (Cursor.ofSource first) elements c)
    (hend : c.tokens = [])
    (hsecond : Reads .done (.many .sourceElement) (Cursor.ofSource second) laters c')
    (hend' : c'.tokens = [])
    (hclosed : ∀ token ∈ (TokenStream.ofSource first).tokens.getLast?,
      token.kind.closesStatement = true) (hcomment : ¬ Source.EndsInComment first) :
    ∃ both spans, Tree.parse (first ++ "\n" ++ second) = .ok (.ofElements both spans) ∧
      allWithoutSpans both = allWithoutSpans elements ++ allWithoutSpans laters := by
  have hvalid : ∀ token ∈ (TokenStream.ofSource first).tokens, token.kind ≠ .invalid := by
    obtain ⟨taken, htokens, htaken⟩ := hfirst.passes
    rw [hend, List.append_nil] at htokens
    intro token htoken
    have hadmits := htaken token (htokens ▸ htoken)
    rintro hkind
    rw [hkind] at hadmits
    cases hadmits
  -- The tokens of the whole, without spans, are those of the two texts.
  have hcursor : (Cursor.ofSource (first ++ "\n" ++ second)).withoutSpans =
      (Cursor.ofSource first).withoutSpans.followedBy
        (Cursor.ofSource second).withoutSpans.onNewLine := by
    obtain ⟨later, hviews, hstream⟩ :=
      TokenStream.ofSource_append_newline second hvalid hcomment
    have hlater : (Cursor.ofStream later).withoutSpans = (Cursor.ofSource second).withoutSpans :=
      withoutSpans_eq_of_views hviews
    rw [Cursor.ofSource, hstream, withoutSpans_followedBy, withoutSpans_onNewLine, hlater]
    rfl
  have hover : (Cursor.ofSource first).withoutSpans.tokens ≠ [] →
      (Cursor.ofSource first).withoutSpans.EndsClosed := by
    intro hne
    have htokens := mt (Cursor.tokens_withoutSpans_eq_nil _).mpr hne
    have hlast := List.getLast?_eq_some_getLast htokens
    exact EndsClosed.withoutSpans ⟨_, hlast, hclosed _ hlast⟩
  have hempty {c : Cursor} (h : c.tokens = []) : c.withoutSpans.tokens = [] :=
    (Cursor.tokens_withoutSpans_eq_nil c).mpr h
  obtain ⟨last, hlaters, hlast⟩ := hsecond.withoutSpans.many_onNewLine (hempty hend')
  have hprevious : c.withoutSpans.previousEnd =
      (Cursor.ofSource second).withoutSpans.onNewLine.previousEnd := by
    rw [previousEnd_onNewLine]
    rfl
  have hmany := hfirst.withoutSpans.many_followedBy (hempty hend) hover hprevious hlaters
  rw [← hcursor] at hmany
  obtain ⟨whole, hparse, hwhole⟩ := exists_parse_of_reads (.program (.sourceElements hmany) hlast)
  obtain ⟨both, spans, -, rfl, -, -⟩ := exists_elements_of_parse hparse
  refine ⟨both, spans, hparse, ?_⟩
  rw [Tree.branch_eq, Tree.branch_eq, Tree.withoutSpans_ofElements] at hwhole
  simp only [Tree.ofElements, Tree.node.injEq, List.cons.injEq, true_and] at hwhole
  exact hwhole.1.1.1

end

/-! ## Programs -/

/-- A program is compiled from its elements without their spans. -/
theorem Program.ofTree_ofElements_iff {elements : List Tree} {spans : Span × Span × Span}
    {body : List Operation} :
    ofTree (.ofElements elements spans) = .ok ⟨body⟩ ↔
      List.flatten <$> (allWithoutSpans elements).mapM Lowering.operations = .ok body := by
  rw [← body_ofTree_ofElements _ (Span.point 0, Span.point 0, Span.point 0),
    ← Tree.withoutSpans_ofElements elements spans, ofTree_withoutSpans]
  cases ofTree (.ofElements elements spans) with
  | error error => exact iff_of_false nofun nofun
  | ok program =>
    obtain ⟨compiled⟩ := program
    constructor
    · rintro ⟨⟩
      rfl
    · rintro ⟨⟩
      rfl

/-- Elements that are compiled one after the other give their operations one after the other. -/
theorem Program.ofTree_append {elements laters both : List Tree}
    {spans spans' joined : Span × Span × Span} {program later : Program}
    (hboth : allWithoutSpans both = allWithoutSpans elements ++ allWithoutSpans laters)
    (hprogram : ofTree (.ofElements elements spans) = .ok program)
    (hlater : ofTree (.ofElements laters spans') = .ok later) :
    ofTree (.ofElements both joined) = .ok ⟨program.body ++ later.body⟩ := by
  have hbodies := ofTree_ofElements_iff.mp hprogram
  have hlaters := ofTree_ofElements_iff.mp hlater
  rw [ofTree_ofElements_iff, hboth, List.mapM_append]
  generalize (allWithoutSpans elements).mapM Lowering.operations = compiled at hbodies
  generalize (allWithoutSpans laters).mapM Lowering.operations = compiledLater at hlaters
  cases compiled with
  | error error => cases hbodies
  | ok bodies =>
    cases compiledLater with
    | error error => cases hlaters
    | ok more =>
      rw [← Except.ok.inj hbodies, ← Except.ok.inj hlaters, ← List.flatten_append]
      rfl

/-- A program is that of its tree. -/
theorem Program.ofSource_eq_ok_iff {program : Program} (h : Tree.parse source = .ok tree) :
    ofSource source = .ok program ↔ ofTree tree = .ok program := by
  unfold ofSource
  rw [h]
  change (ofTree tree).mapError Error.rejected = _ ↔ _
  cases ofTree tree with
  | error error => exact iff_of_false nofun nofun
  | ok compiled => exact ⟨fun hok => congrArg _ (Except.ok.inj hok), congrArg _⟩

/-- A source text whose last statement is over, followed by another one on a new line, is read as
the elements of the first and then those of the second, up to spans, and compiled to the operations
of the first and then those of the second. The last statement is over when the last token is a
semicolon or a closing brace, and no block comment is left open behind it. -/
theorem sources_concatenate {first second : String} {tree other : Tree}
    (hfirst : Tree.parse first = .ok tree) (hsecond : Tree.parse second = .ok other)
    (hclosed : ∀ token ∈ (TokenStream.ofSource first).tokens.getLast?,
      token.kind.closesStatement = true) (hcomment : ¬ Source.EndsInComment first) :
    (∃ elements laters both spans spans' joined,
      tree = .ofElements elements spans ∧ other = .ofElements laters spans' ∧
      Tree.parse (first ++ "\n" ++ second) = .ok (.ofElements both joined) ∧
      allWithoutSpans both = allWithoutSpans (elements ++ laters)) ∧
    ∀ program later, Program.ofSource first = .ok program → Program.ofSource second = .ok later →
      Program.ofSource (first ++ "\n" ++ second) = .ok ⟨program.body ++ later.body⟩ := by
  obtain ⟨elements, spans, c, rfl, hend, helements⟩ := exists_elements_of_parse hfirst
  obtain ⟨laters, spans', c', rfl, hend', hlaters⟩ := exists_elements_of_parse hsecond
  obtain ⟨both, joined, hparse, hboth⟩ :=
    exists_parse_append helements hend hlaters hend' hclosed hcomment
  constructor
  · rw [← Tree.allWithoutSpans_append] at hboth
    exact ⟨elements, laters, both, spans, spans', joined, rfl, rfl, hparse, hboth⟩
  · intro program later hprogram hlater
    rw [Program.ofSource_eq_ok_iff hfirst] at hprogram
    rw [Program.ofSource_eq_ok_iff hsecond] at hlater
    rw [Program.ofSource_eq_ok_iff hparse]
    exact Program.ofTree_append hboth hprogram hlater

/-- The last token of a conditional with an empty alternative is a semicolon. -/
theorem closesStatement_choice :
    ∀ token ∈ (TokenStream.ofSource Tree.choice.written).tokens.getLast?,
      token.kind.closesStatement = true := by
  obtain ⟨hwritten, hspells⟩ := Scan.scanFrom_intercalate Tree.produces_choice.areSpelled 0
  have htexts : (TokenStream.ofSource Tree.choice.written).tokens.map (·.text) =
      Tree.choice.leafTexts := hwritten
  intro token htoken
  have hlast : some token.text = Tree.choice.leafTexts.getLast? := by
    rw [← htexts, List.getLast?_map, Option.mem_def.mp htoken]
    rfl
  have htext : token.text = Mark.semicolon.spelling := Option.some.inj hlast
  have hsemicolon := (hspells token (List.mem_of_getLast? htoken)).2
  rw [htext] at hsemicolon
  rw [hsemicolon.unique (Scan.spells_mark .semicolon)]
  rfl

/-- A conditional can be followed by itself. -/
theorem sources_concatenate_choice :
    let source := "if ( a ) b = c || d && e ; else ;"
    let operation := Operation.ifThenElse (.getVariable "a")
      [.setVariable "b" (.binary .either (.getVariable "c")
        (.binary .both (.getVariable "d") (.getVariable "e"))) .unconstrained false] []
    ¬ Source.EndsInComment source ∧
      (∃ elements laters both spans spans' joined,
        Tree.parse source = .ok (.ofElements elements spans) ∧
        Tree.parse source = .ok (.ofElements laters spans') ∧
        Tree.parse (source ++ "\n" ++ source) = .ok (.ofElements both joined) ∧
        allWithoutSpans both = allWithoutSpans (elements ++ laters)) ∧
      Program.ofSource source = .ok ⟨[operation]⟩ ∧
      Program.ofSource (source ++ "\n" ++ source) = .ok ⟨[operation, operation]⟩ := by
  intro source operation
  obtain ⟨tree, c, hreads, hsame⟩ := Tree.produces_choice.exists_reads
  have hparse : Tree.parse source = .ok tree := Tree.parse_eq_ok_iff.mpr ⟨c, hreads⟩
  have hcomment : ¬ Source.EndsInComment source := Source.not_endsInComment (by decide)
  have hprogram : Program.ofSource source = .ok ⟨[operation]⟩ := by
    have hscript : tree.withoutSpans = Surface.choiceScript.tree := hsame.trans rfl
    exact (Program.ofSource_eq_ok_iff hparse).mpr (Surface.accords_ofTree hscript)
  obtain ⟨⟨elements, laters, both, spans, spans', joined, htree, hother, hwhole, hboth⟩, hbody⟩ :=
    sources_concatenate hparse hparse closesStatement_choice hcomment
  exact ⟨hcomment, ⟨elements, laters, both, spans, spans', joined, htree ▸ hparse,
    hother ▸ hparse, hwhole, hboth⟩, hprogram, hbody _ _ hprogram hprogram⟩

end TreeScript
