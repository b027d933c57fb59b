import TreeScript.Proofs.Token.Concatenation

/-!
# Where a line break is told

A token, or the end of a text, is told to come after a line break by the gap before it. Four
characters break a line between tokens, but only two of them, line feed and carriage return, do so
inside a comment as well: the line separator and the paragraph separator break no line there, and
do not end a line comment. So what is told is exact for the first two wherever they stand, and for
the other two outside comments.

`Uncommented` says which characters of a gap stand outside its comments, without the reader that
skips it.
-/

namespace TreeScript

/-- A gap, and whether a line break is told of what comes after it. -/
structure ToldGap where
  span : Span
  newline : Bool
deriving DecidableEq, Repr

/-- The gaps before the given tokens and before the end of the text, from `offset` on. -/
def toldGaps (endOffset : Nat) (newlineBeforeEnd : Bool) (offset : Nat) : List Token → List ToldGap
  | [] => [⟨⟨offset, endOffset⟩, newlineBeforeEnd⟩]
  | token :: rest =>
    ⟨⟨offset, token.span.start⟩, token.newlineBefore⟩ ::
      toldGaps endOffset newlineBeforeEnd token.span.stop rest

/-- The gaps before the tokens of a stream and before its end. The first one begins where the text
does, and every other one where a token ends. -/
def TokenStream.gaps (stream : TokenStream) : List ToldGap :=
  toldGaps stream.endOffset stream.newlineBeforeEnd 0 stream.tokens

namespace Scan

variable {gap after plain : List Char}

/-- The characters that break a line between tokens only. -/
def isSeparator (c : Char) : Bool := c == '\u2028' || c == '\u2029'

/-- Two sorts of line break. -/
theorem isLineBreak_eq (c : Char) : isLineBreak c = (isLineFeed c || isSeparator c) := by
  rw [isLineBreak, isSeparator, Bool.or_assoc]

/-! ## Gaps and their comments -/

/-- Trivia in front of the characters `after`, with those of its characters that stand outside its
comments. -/
inductive Uncommented (after : List Char) : List Char → List Char → Prop
  | none : Uncommented after [] []
  | blank {c : Char} {gap plain : List Char} :
      (isBlank c || isLineBreak c) = true → Uncommented after gap plain →
      Uncommented after (c :: gap) (c :: plain)
  | lineComment {body gap plain : List Char} :
      (∀ c ∈ body, isLineFeed c = false) → EndsLine (gap ++ after) → Uncommented after gap plain →
      Uncommented after ('/' :: '/' :: (body ++ gap)) plain
  | blockComment {body gap plain : List Char} :
      ¬ ['*', '/'] <:+: body → Uncommented after gap plain →
      Uncommented after ('/' :: '*' :: (body ++ '*' :: '/' :: gap)) plain
  | openComment {body : List Char} :
      ¬ ['*', '/'] <:+: body → after = [] → Uncommented after ('/' :: '*' :: body) []

/-- The comments of every gap can be told from the rest. -/
theorem IsTrivia.exists_uncommented (h : IsTrivia after gap) :
    ∃ plain, Uncommented after gap plain := by
  induction h with
  | none => exact ⟨[], .none⟩
  | blank hblank _ ih =>
    obtain ⟨plain, hplain⟩ := ih
    exact ⟨_, .blank hblank hplain⟩
  | lineComment hbody hend _ ih =>
    obtain ⟨plain, hplain⟩ := ih
    exact ⟨plain, .lineComment hbody hend hplain⟩
  | blockComment hbody _ ih =>
    obtain ⟨plain, hplain⟩ := ih
    exact ⟨plain, .blockComment hbody hplain⟩
  | openComment hbody hafter => exact ⟨[], .openComment hbody hafter⟩

/-- Whether a gap breaks the line: with a line feed or a carriage return anywhere, or with another
line break outside its comments. -/
def breaksLine (gap plain : List Char) : Bool := gap.any isLineFeed || plain.any isSeparator

/-- A break is the first character or later. -/
theorem breaksLine_cons (c : Char) (gap plain : List Char) :
    breaksLine (c :: gap) (c :: plain) = (isLineBreak c || breaksLine gap plain) := by
  simp only [breaksLine, isLineBreak_eq, List.any_cons]
  ac_rfl

/-- A comment breaks the line with what it holds. -/
theorem breaksLine_append (comment gap plain : List Char) :
    breaksLine (comment ++ gap) plain = (comment.any isLineFeed || breaksLine gap plain) := by
  rw [breaksLine, List.any_append, Bool.or_assoc, breaksLine]

/-- A gap in front of a token tells whether it breaks the line. -/
theorem Uncommented.newline (h : Uncommented after gap plain) (hafter : StartsToken after) :
    (skipGap .between (gap ++ after)).newline = breaksLine gap plain := by
  induction h with
  | none =>
    rw [List.nil_append, hafter]
    rfl
  | @blank c gap plain hblank _ ih =>
    rw [List.cons_append, breaksLine_cons, ← ih]
    cases hbreak : isLineBreak c with
    | true => rw [skipGap_lineBreak hbreak, Gap.prepend]
    | false =>
      rw [hbreak, Bool.or_false] at hblank
      rw [skipGap_blank hblank, Gap.prepend]
  | @lineComment body gap plain hbody hend _ ih =>
    have hnone : ('/' :: '/' :: body).any isLineFeed = false := by
      simpa [isLineFeed] using hbody
    rw [← List.cons_append, ← List.cons_append, breaksLine_append, hnone, ← ih]
    rw [List.cons_append, List.cons_append, List.cons_append, List.cons_append, List.append_assoc,
      skipGap, skipGap_line_append hbody, skipGap_line_of_endsLine hend, Gap.prepend_prepend]
    rfl
  | @blockComment body gap plain hbody _ ih =>
    have hcomment : ('/' :: '*' :: (body ++ ['*', '/'])).any isLineFeed = body.any isLineFeed := by
      simp [isLineFeed]
    have hgap : '/' :: '*' :: (body ++ '*' :: '/' :: gap) =
        '/' :: '*' :: (body ++ ['*', '/']) ++ gap := by simp
    rw [hgap, breaksLine_append, hcomment, ← ih, ← hgap]
    have hskip := skipGap_block_end hbody (gap ++ after)
    rw [List.cons_append, List.cons_append, List.append_assoc, List.cons_append, List.cons_append,
      skipGap, hskip, Gap.prepend_prepend]
    rfl
  | @openComment body hbody hnil =>
    obtain ⟨last, hopen⟩ := @skipGap_block_append _ false hbody []
    rw [List.append_nil] at hopen
    rw [hnil, List.append_nil, skipGap, hopen]
    simp [breaksLine, Gap.prepend, skipGap, isLineFeed]

/-! ## Streams -/

/-- The characters are `front`, then a gap at its span, then `after`, and what is told of the gap is
whether it breaks the line. -/
structure Tells (told : ToldGap) (chars front gap after : List Char) : Prop where
  parts : chars = front ++ gap ++ after
  start : Source.byteLength front = told.span.start
  stop : Source.byteLength (front ++ gap) = told.span.stop
  trivia : IsTrivia after gap
  newline : ∀ plain, Uncommented after gap plain → told.newline = breaksLine gap plain

/-- What is told of a gap that is skipped is whether it breaks the line. -/
theorem tells_skipGap (before chars : List Char) :
    let gap := skipGap .between chars
    let start := Source.byteLength before
    Tells ⟨⟨start, start + Source.byteLength gap.skipped⟩, gap.newline⟩ (before ++ chars) before
      gap.skipped gap.rest := by
  have hchars := skipped_append_rest .between chars
  refine ⟨?_, rfl, Source.byteLength_append _ _, isTrivia_skipped chars, ?_⟩
  · rw [List.append_assoc, hchars]
  · intro plain hplain
    rw [← hplain.newline (startsToken_rest_skipGap .between chars), hchars]

/-- Every gap of the characters that are scanned is told exactly. -/
theorem tells_scanFrom (offset : Nat) (chars before : List Char)
    (hbefore : Source.byteLength before = offset) (told : ToldGap)
    (htold : told ∈ toldGaps (scanFrom offset chars).endOffset
      (scanFrom offset chars).newlineBeforeEnd offset (scanFrom offset chars).tokens) :
    ∃ front gap after, Tells told (before ++ chars) front gap after := by
  fun_induction scanFrom offset chars generalizing before with
  | case1 offset chars gap start hrest =>
    obtain rfl := List.mem_singleton.mp htold
    subst hbefore
    exact ⟨_, _, _, tells_skipGap before chars⟩
  | case2 offset chars gap start first rest hrest read stop token later ih =>
    subst hbefore
    rcases List.mem_cons.mp htold with rfl | hlater
    · exact ⟨_, _, _, tells_skipGap before chars⟩
    · have hall : gap.skipped ++ read.text ++ read.rest = chars := skipped_append_lexeme hrest
      have hstop : Source.byteLength (before ++ (gap.skipped ++ read.text)) = stop := by
        simp only [Source.byteLength_append, stop, start, Nat.add_assoc]
      obtain ⟨front, skipped, after, htells⟩ := ih _ hstop hlater
      rw [List.append_assoc, hall] at htells
      exact ⟨front, skipped, after, htells⟩

/-- Where a gap breaks the line. -/
theorem breaksLine_iff :
    breaksLine gap plain = true ↔
      (∃ c ∈ gap, c ∈ ['\n', '\r']) ∨ ∃ c ∈ plain, c ∈ ['\u2028', '\u2029'] := by
  simp [breaksLine, isLineFeed, isSeparator]

/-- What stands outside the comments of a gap stands in the gap. -/
theorem Uncommented.subset (h : Uncommented after gap plain) : plain ⊆ gap := by
  induction h with
  | none => exact List.Subset.refl _
  | blank _ _ ih => exact List.cons_subset_cons _ ih
  | lineComment _ _ _ ih =>
    exact List.Subset.trans ih (fun c hc => by simp [hc])
  | blockComment _ _ ih =>
    exact List.Subset.trans ih (fun c hc => by simp [hc])
  | openComment _ _ => exact List.nil_subset _

end Scan

/-- The gaps of a source text are what stands before its first token, between two tokens and after
the last one. A line break is told after a gap exactly if a line feed or a carriage return stands
in it, or a line separator or paragraph separator outside its comments. So if no separator stands
in the comments of the gap only, a line break is told exactly if one of the four characters stands
in the gap. -/
theorem TokenStream.newline_told_iff (source : String) :
    ∀ told ∈ (TokenStream.ofSource source).gaps, ∃ front gap after,
      source.toList = front ++ gap ++ after ∧
      Source.byteLength front = told.span.start ∧
      Source.byteLength (front ++ gap) = told.span.stop ∧
      (∃ plain, Scan.Uncommented after gap plain) ∧
      ∀ plain, Scan.Uncommented after gap plain →
        (told.newline = true ↔
          (∃ c ∈ gap, c ∈ ['\n', '\r']) ∨ ∃ c ∈ plain, c ∈ ['\u2028', '\u2029']) ∧
        ((∀ c ∈ gap, c ∈ ['\u2028', '\u2029'] → c ∈ plain) →
          (told.newline = true ↔ ∃ c ∈ gap, c ∈ ['\n', '\r', '\u2028', '\u2029'])) := by
  intro told htold
  obtain ⟨front, gap, after, htells⟩ := Scan.tells_scanFrom 0 source.toList [] rfl told htold
  refine ⟨front, gap, after, htells.parts, htells.start, htells.stop,
    htells.trivia.exists_uncommented, fun plain hplain => ?_⟩
  have hnewline : told.newline = true ↔
      (∃ c ∈ gap, c ∈ ['\n', '\r']) ∨ ∃ c ∈ plain, c ∈ ['\u2028', '\u2029'] := by
    rw [htells.newline plain hplain, Scan.breaksLine_iff]
  refine ⟨hnewline, fun houtside => hnewline.trans ⟨?_, ?_⟩⟩
  · rintro (⟨c, hc, hbreak⟩ | ⟨c, hc, hbreak⟩)
    · exact ⟨c, hc, List.mem_append_left ['\u2028', '\u2029'] hbreak⟩
    · exact ⟨c, hplain.subset hc, List.mem_append_right ['\n', '\r'] hbreak⟩
  · rintro ⟨c, hc, hbreak⟩
    rcases List.mem_append.mp (show c ∈ ['\n', '\r'] ++ ['\u2028', '\u2029'] from hbreak) with
      hfeed | hseparator
    · exact .inl ⟨c, hc, hfeed⟩
    · exact .inr ⟨c, houtside c hc hseparator, hseparator⟩

/-- A line separator in a comment and a paragraph separator behind it. -/
theorem TokenStream.newline_told_separators :
    ⟨⟨1, 11⟩, true⟩ ∈ (TokenStream.ofSource "1/*\u2028*/\u20292").gaps ∧
      ∃ front gap after, "1/*\u2028*/\u20292".toList = front ++ gap ++ after ∧
        Source.byteLength front = 1 ∧ Source.byteLength (front ++ gap) = 11 ∧
        ∃ plain, Scan.Uncommented after gap plain ∧
          ((∃ c ∈ gap, c ∈ ['\n', '\r']) ∨ ∃ c ∈ plain, c ∈ ['\u2028', '\u2029']) := by
  have hgap : ⟨⟨1, 11⟩, true⟩ ∈ (TokenStream.ofSource "1/*\u2028*/\u20292").gaps := by
    have hfirst : Scan.lexeme '1' "/*\u2028*/\u20292".toList =
        ⟨.number, ['1'], "/*\u2028*/\u20292".toList⟩ := by decide
    have hskipped : Scan.skipGap .between "/*\u2028*/\u20292".toList =
        ⟨"/*\u2028*/\u2029".toList, true, ['2']⟩ := by decide
    have hsecond : Scan.lexeme '2' [] = ⟨.number, ['2'], []⟩ := by decide
    rw [TokenStream.ofSource, Scan.scanFrom_of_lexeme rfl hfirst,
      Scan.scanFrom_of_lexeme hskipped hsecond, Scan.scanFrom_nil]
    decide
  obtain ⟨front, gap, after, hparts, hstart, hstop, ⟨plain, hplain⟩, htold⟩ :=
    newline_told_iff "1/*\u2028*/\u20292" _ hgap
  exact ⟨hgap, front, gap, after, hparts, hstart, hstop, plain, hplain,
    (htold plain hplain).1.mp rfl⟩

/-- A line separator in a comment, and no line break is told. -/
theorem TokenStream.separator_in_comment_untold :
    ⟨⟨1, 8⟩, false⟩ ∈ (TokenStream.ofSource "1/*\u2028*/2").gaps ∧
      ∃ gap, Source.slice? "1/*\u2028*/2" ⟨1, 8⟩ = some gap ∧
        ∃ c ∈ gap, c ∈ ['\n', '\r', '\u2028', '\u2029'] := by
  have hfirst : Scan.lexeme '1' "/*\u2028*/2".toList =
      ⟨.number, ['1'], "/*\u2028*/2".toList⟩ := by decide
  have hskipped : Scan.skipGap .between "/*\u2028*/2".toList =
      ⟨"/*\u2028*/".toList, false, ['2']⟩ := by decide
  have hsecond : Scan.lexeme '2' [] = ⟨.number, ['2'], []⟩ := by decide
  constructor
  · rw [TokenStream.ofSource, Scan.scanFrom_of_lexeme rfl hfirst,
      Scan.scanFrom_of_lexeme hskipped hsecond, Scan.scanFrom_nil]
    decide
  · exact ⟨"/*\u2028*/".toList, by decide, '\u2028', by decide, by decide⟩

end TreeScript
