import TreeScript.Proofs.Lowering.Blame
import TreeScript.Proofs.Source.Coordinates

/-!
# Excerpts of rejected source texts

An excerpt shows the line and the column at which a span starts, and the first line of the text
under it. There is one for every span and every text: where the span does not fit the text, it
counts from the last boundary in front of its start and shows nothing. The span of a rejection of a
source text always fits: it begins where a token does, so the excerpt shows some of the text.
-/

namespace TreeScript

namespace Source

/-! ## First lines -/

/-- The first line of some characters is all of them, or what is in front of a line feed, less a
carriage return right before that. -/
inductive FirstLine : List Char → List Char → Prop
  | only {line : List Char} : '\n' ∉ line → FirstLine line line
  | fed {line rest : List Char} :
      '\n' ∉ line → line.getLast? ≠ some '\r' → FirstLine (line ++ '\n' :: rest) line
  | returned {line rest : List Char} :
      '\n' ∉ line → FirstLine (line ++ '\r' :: '\n' :: rest) line

/-- The first line that is cut off is the first line. -/
theorem firstLine_firstLine (text : List Char) : FirstLine text (firstLine text) := by
  have hall : text.takeWhile (· != '\n') ++ text.dropWhile (· != '\n') = text :=
    List.takeWhile_append_dropWhile
  have hline : '\n' ∉ text.takeWhile (· != '\n') := by
    intro hmem
    simpa using List.mem_takeWhile_imp hmem
  have hbehind := List.head?_dropWhile_not (· != '\n') text
  unfold firstLine
  generalize text.takeWhile (· != '\n') = line at hall hline
  generalize text.dropWhile (· != '\n') = behind at hall hbehind
  subst hall
  cases behind with
  | nil =>
    simp only [List.append_nil, lt_irrefl, decide_false, Bool.false_and]
    exact .only hline
  | cons c rest =>
    obtain rfl : c = '\n' := by simpa using hbehind
    have hshort : line.length < (line ++ '\n' :: rest).length := by simp
    simp only [hshort, decide_true, Bool.true_and, beq_iff_eq]
    split
    · rename_i hreturn
      obtain ⟨line, rfl⟩ := List.getLast?_eq_some_iff.mp hreturn
      rw [List.dropLast_concat, List.append_assoc]
      exact .returned fun hmem => hline (List.mem_append_left _ hmem)
    · exact .fed hline ‹_›

/-- A text that does not begin with the end of a line has a first line. -/
theorem FirstLine.ne_nil {c : Char} {rest line : List Char} (h : FirstLine (c :: rest) line)
    (hc : c ≠ '\n' ∧ c ≠ '\r') : line ≠ [] := by
  rintro rfl
  generalize htext : c :: rest = text at h
  cases h with
  | only _ => cases htext
  | fed _ _ => exact hc.1 (List.cons.inj htext).1
  | returned _ => exact hc.2 (List.cons.inj htext).1

/-! ## Excerpts -/

/-- An excerpt counts from the last boundary that is not behind the start of the span, and shows the
first line of the text under the span, if there is one. -/
theorem exists_excerpt (source : String) (span : Span) : ∃ boundary place line,
    IsGreatest {p | IsBoundary source.toList p ∧ p ≤ span.start} boundary ∧
    offset? source place = some boundary ∧
    (∀ text, IsUnder source span text → FirstLine text line) ∧
    ((∀ text, ¬ IsUnder source span text) → line = []) ∧
    excerpt source span = s!"{place.line}:{place.column}: `{String.ofList line}`" := by
  have hgreatest := isGreatest_takeWithin span.start source.toList
  obtain ⟨back, hsource⟩ := takeWithin_prefix span.start source.toList
  refine ⟨_, position source span.start, firstLine ((slice? source span).getD []), hgreatest, ?_,
    ?_, ?_, rfl⟩
  · exact offset?_eq_some_iff.mpr ⟨hgreatest.1.1, position_append hsource.symm⟩
  · intro text htext
    rw [slice?_eq_some_iff.mpr htext]
    exact firstLine_firstLine text
  · intro hnone
    have hslice : slice? source span = none := by
      rw [Option.eq_none_iff_forall_ne_some]
      exact fun text htext => hnone text (slice?_eq_some_iff.mp htext)
    rw [hslice]
    rfl

/-- Two texts that start at the same offset begin alike. -/
theorem IsUnder.head?_eq {source : String} {first second : Span} {c : Char} {rest text : List Char}
    (hfirst : IsUnder source first (c :: rest)) (hsecond : IsUnder source second text)
    (hstart : second.start = first.start) (hle : second.start < second.stop) :
    text.head? = some c := by
  obtain ⟨front, back, hsource, hfront, -⟩ := hfirst
  obtain ⟨front', back', hsource', hfront', hstop⟩ := hsecond
  have hsame : front' = front := by
    have hcut := takeWithin_append front (c :: rest ++ back)
    have hcut' := takeWithin_append front' (text ++ back')
    rw [← List.append_assoc, ← hsource, hfront] at hcut
    rw [← List.append_assoc, ← hsource', hfront', hstart] at hcut'
    exact hcut'.symm.trans hcut
  subst hsame
  rw [hsource, List.append_assoc, List.append_assoc, List.append_cancel_left_eq] at hsource'
  cases text with
  | nil =>
    rw [byteLength_nil] at hstop
    omega
  | cons d text =>
    rw [(List.cons.inj hsource').1]
    rfl

end Source

/-! ## Where parts of a source text begin -/

/-- Tokens that tile a text begin with no end of a line. -/
theorem Scan.Tiles.begins {offset : Nat} {chars : List Char} {tokens : List Token}
    (h : Tiles offset chars tokens) :
    ∀ token ∈ tokens, token.span.start < token.span.stop ∧
      ∃ c rest, token.text.toList = c :: rest ∧ isLineBreak c = false := by
  induction h with
  | gap => exact List.forall_mem_nil _
  | @token offset gap rest token tokens _ hbegins htext _ hstop _ ih =>
    refine List.forall_mem_cons.mpr ⟨?_, ih⟩
    cases hchars : token.text.toList with
    | nil => exact absurd (String.toList_eq_nil_iff.mp hchars) htext
    | cons c tail =>
      rw [hchars] at hbegins hstop
      have hpos := Source.byteLength_pos (List.cons_ne_nil c tail)
      refine ⟨by omega, c, tail, rfl, ?_⟩
      by_contra hbreak
      have hblank : (isBlank c || isLineBreak c) = true := by
        rw [Bool.eq_true_of_not_eq_false hbreak, Bool.or_true]
      exact hbegins ⟨[c], tail ++ rest, List.cons_ne_nil _ _, .blank hblank .none, rfl⟩

/-- What has been read ends no earlier than before. -/
theorem Seam.Orderly.le_after {p : Seam} (h : p.Orderly) (count : Nat) :
    p.previousEnd ≤ (p.after count).previousEnd := by
  fun_induction Seam.after p count with
  | case1 => exact le_rfl
  | case2 => exact le_rfl
  | case3 leaf rest previousEnd count ih =>
    obtain ⟨high, hahead⟩ := h
    cases hahead with
    | cons hstart hstop hrest => exact (hstart.trans hstop).trans (ih ⟨high, hrest⟩)

open TreeScript.Tree (allLeaves_singleton)

/-- A firm part of a source text begins with a token, and has a text. -/
theorem Tree.Firm.exists_token {source : String} {tree sub : Tree} {c : Cursor}
    (hreads : Reads .done .program (Cursor.ofSource source) [tree] c) (h : tree.Firm sub) :
    ∃ token ∈ (TokenStream.ofSource source).tokens, sub.leaves.head? = some token.leaf ∧
      sub.span.start = token.span.start ∧ token.span.stop ≤ sub.span.stop ∧
      ∃ text, Source.IsUnder source sub.span text := by
  obtain ⟨before, hstands⟩ := h.stands
  obtain ⟨first, hfirst, hcategory⟩ := h.solid.exists_leaf
  obtain ⟨horderly, hbounded⟩ := seam_ofSource source
  have hfits := hreads.spans_program.fits horderly hstands
  obtain ⟨text, htext⟩ := hfits.exists_slice? (hbounded.after before)
  have hprefix := hstands.leaves_prefix
  rw [allLeaves_singleton] at hprefix
  have hleaves : (Cursor.ofSource source).seam.ahead = tree.leaves := hreads.leaves_program.1.symm
  have hahead := Seam.ahead_after (Cursor.ofSource source).seam before
  rw [hleaves] at hahead
  obtain ⟨later, hlater⟩ := List.head?_eq_some_iff.mp hfirst
  obtain ⟨behind, hbehind⟩ := hprefix
  rw [← hbehind, hlater, List.cons_append] at hahead
  -- The first leaf is that of a token, as it is not the end of the input.
  have hmem : first ∈ tree.leaves := by
    apply List.mem_of_mem_drop
    rw [← hbehind, hlater]
    exact List.mem_append_left _ List.mem_cons_self
  rw [hreads.leaves_ofSource] at hmem
  rcases List.mem_append.mp hmem with hmapped | hend
  · obtain ⟨token, htoken, rfl⟩ := List.mem_map.mp hmapped
    have hspan := hfits.filled (by rw [hlater]; exact List.cons_ne_nil _ _)
    have hnext := horderly.after before
    generalize (Cursor.ofSource source).seam.after before = p at hahead hspan hnext
    obtain ⟨ahead, previousEnd⟩ := p
    subst hahead
    rw [hlater, List.length_cons, Seam.after] at hspan
    obtain ⟨high, hordered⟩ := hnext
    cases hordered with
    | cons _ _ hrest =>
      have hordered : Seam.Orderly ⟨later ++ behind, token.leaf.span.stop⟩ := ⟨high, hrest⟩
      have hle := hordered.le_after later.length
      refine ⟨token, htoken, hfirst, by rw [hspan]; rfl, ?_, text,
        Source.slice?_eq_some_iff.mp htext⟩
      rw [hspan]
      exact hle
  · obtain rfl := List.mem_singleton.mp hend
    exact absurd rfl hcategory

/-! ## Rejections -/

/-- A rejection of a source text points at a part of its tree that has leaves, and there is text
under its span. Its excerpt shows the line and the column of the first of these leaves, and the
first line of that text, which is not empty. An excerpt from any other text exists as well: it
counts from the last boundary up to the start of the span, and shows nothing if the span does not
fit. -/
theorem excerpt_of_rejected :
    (∀ (source : String) (tree : Tree) (error : CompileError), Tree.parse source = .ok tree →
      Program.ofTree tree = .error error →
      ∃ (sub first : Tree) (before : Nat) (text line : List Char) (place : Position),
        sub.Stands before [tree] ∧ error.span = sub.span ∧
        String.Pos.Raw.IsValid source ⟨error.span.start⟩ ∧
        String.Pos.Raw.IsValid source ⟨error.span.stop⟩ ∧ error.span.start < error.span.stop ∧
        sub.leaves.head? = some first ∧ Source.offset? source place = some first.span.start ∧
        Source.IsUnder source error.span text ∧ Source.FirstLine text line ∧ line ≠ [] ∧
        error.excerpt source = s!"{place.line}:{place.column}: `{String.ofList line}`") ∧
    ∀ (error : CompileError) (source : String), ∃ boundary place line,
      IsGreatest {p | String.Pos.Raw.IsValid source ⟨p⟩ ∧ p ≤ error.span.start} boundary ∧
      Source.offset? source place = some boundary ∧
      (∀ text, Source.IsUnder source error.span text → Source.FirstLine text line) ∧
      ((∀ text, ¬ Source.IsUnder source error.span text) → line = []) ∧
      error.excerpt source = s!"{place.line}:{place.column}: `{String.ofList line}`" := by
  simp only [← Source.isBoundary_iff_isValid]
  refine ⟨?_, fun error source => Source.exists_excerpt source error.span⟩
  intro source tree error hparse herror
  obtain ⟨c, hreads⟩ := Tree.parse_eq_ok_iff.mp hparse
  have hproduces := (hreads.produces (Cursor.isSpelled_ofSource source)).2
  obtain ⟨sub, hfirm, hspan⟩ := Lowering.pointsAt_of_produces hproduces herror
  obtain ⟨before, hstands⟩ := hfirm.stands
  obtain ⟨token, htoken, hfirst, hstart, hstop, text, htext⟩ := hfirm.exists_token hreads
  rw [← hspan] at hstart hstop htext
  have htiles := Scan.tiles_scanFrom 0 source.toList
  obtain ⟨hlong, d, rest, hchars, hbreak⟩ := htiles.begins token htoken
  have hlt : error.span.start < error.span.stop := by omega
  obtain ⟨hlow, hhigh⟩ := htext.isBoundary
  obtain ⟨boundary, place, line, hgreatest, hplace, hline, -, hexcerpt⟩ :=
    Source.exists_excerpt source error.span
  obtain rfl : boundary = error.span.start :=
    hgreatest.unique ⟨⟨hlow, le_rfl⟩, fun p hp => hp.2⟩
  refine ⟨sub, token.leaf, before, text, line, place, hstands, hspan, hlow, hhigh, hlt, hfirst, ?_,
    htext, hline text htext, ?_, hexcerpt⟩
  · rw [hplace, hstart]
    rfl
  · have hslice := htiles.slice? Source.byteLength_nil token htoken
    rw [List.nil_append, String.ofList_toList, hchars] at hslice
    have hhead := (Source.slice?_eq_some_iff.mp hslice).head?_eq htext hstart hlt
    obtain ⟨more, rfl⟩ := List.head?_eq_some_iff.mp hhead
    refine (hline _ htext).ne_nil ⟨?_, ?_⟩
    · rintro rfl
      cases hbreak
    · rintro rfl
      cases hbreak

/-- The tokens of two names that are declared at once, on two lines. -/
def severalTokens : List Token :=
  [⟨.word .varWord, "var", ⟨1, 4⟩, true⟩, ⟨.name, "a", ⟨5, 6⟩, false⟩,
    ⟨.mark .comma, ",", ⟨6, 7⟩, false⟩, ⟨.name, "b", ⟨8, 9⟩, true⟩]

/-- Two names in one declaration are rejected. -/
theorem parse_severalTokens : ∃ tree, Tree.parse "\nvar a,\nb" = .ok tree ∧
    Program.ofTree tree =
      .error (.unsupported (some .variableDeclarationList) 4 .severalDeclarators ⟨1, 9⟩) := by
  have hsource : Cursor.ofSource "\nvar a,\nb" = ⟨severalTokens, 9, false, 0⟩ := by
    with_unfolding_all rfl
  have hlast : Reads .done .declarator ⟨severalTokens.drop 3, 9, false, 7⟩ _ _ :=
    .bareDeclarator (.assignable (.identifier (.intro rfl))) rfl
  have hlist : Reads .done (.list .declarator) ⟨severalTokens.drop 1, 9, false, 4⟩ _ _ :=
    .moreItems (.bareDeclarator (.assignable (.identifier (.intro rfl))) rfl) (.intro rfl)
      (.oneItem hlast rfl)
  have hstatement : Reads .done .variableStatement ⟨severalTokens, 9, false, 0⟩ _ _ :=
    .variableStatement (.intro rfl) hlist (.noEndMark rfl (.inr (.inl rfl)))
  have helements := hstatement.before rfl rfl (List.cons_ne_nil _ _) (.none (.inr rfl))
  have hreads := Reads.program (.sourceElements helements) rfl
  rw [← hsource] at hreads
  refine ⟨_, Tree.parse_eq_ok_iff.mpr ⟨_, hreads⟩, ?_⟩
  change (Lowering.lowerProgram (.node .program [_, _] _) Lowering.initial).1 = _
  rw [Lowering.lowerProgram_node rfl]
  simp only [Tree.branch_eq, Tree.wrap, Lowering.visit, Lowering.visitAll, Lowering.visitInner,
    Lowering.lowerVariable]
  rfl

/-- The excerpt of that rejection is the first line of the declaration. -/
theorem excerpt_of_rejected_names :
    ∃ tree error, Tree.parse "\nvar a,\nb" = .ok tree ∧ Program.ofTree tree = .error error ∧
      error.excerpt "\nvar a,\nb" = "2:1: `var a,`" ∧
      ∃ (sub : Tree) (before : Nat) (text line : List Char), sub.Stands before [tree] ∧
        error.span = sub.span ∧ Source.IsUnder "\nvar a,\nb" error.span text ∧
        Source.FirstLine text line ∧ line ≠ [] := by
  obtain ⟨tree, hparse, herror⟩ := parse_severalTokens
  obtain ⟨sub, first, before, text, line, place, hstands, hspan, -, -, -, -, -, htext, hline, hne,
    -⟩ := excerpt_of_rejected.1 _ _ _ hparse herror
  refine ⟨tree, _, hparse, herror, ?_, sub, before, text, line, hstands, hspan, htext, hline, hne⟩
  with_unfolding_all rfl

end TreeScript
