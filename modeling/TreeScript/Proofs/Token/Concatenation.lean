import TreeScript.Proofs.Token.Tiling

/-!
# Tokens of concatenated texts

A line feed keeps what stands before it apart from what comes after: the tokens of two texts with a
line feed between them are those of the first and then those of the second, which begin on a new
line. Two things could spoil this. A quoted text that lacks its end makes an invalid token, which
takes in the line feed; and a block comment that lacks its end takes in all that follows. Where
neither is left open, `scanFrom_append_newline` gives the stream of the whole, with all places.
-/

namespace TreeScript

/-! ## Streams one after the other -/

namespace TokenStream

/-- The same stream behind a line break. -/
def onNewLine (stream : TokenStream) : TokenStream :=
  match stream.tokens with
  | [] => { stream with newlineBeforeEnd := true }
  | token :: rest => { stream with tokens := { token with newlineBefore := true } :: rest }

/-- Two streams as one, which ends where the second does. -/
def followedBy (stream later : TokenStream) : TokenStream :=
  { later with tokens := stream.tokens ++ later.tokens }

/-- The offset behind the last token, or a given one if there is none. -/
def lastStop (stream : TokenStream) (start : Nat) : Nat :=
  (stream.tokens.getLast?.map (·.span.stop)).getD start

/-- The end of the last token. -/
theorem lastStop_cons (stream : TokenStream) (token : Token) (start : Nat) :
    lastStop { stream with tokens := token :: stream.tokens } start =
      stream.lastStop token.span.stop := by
  unfold lastStop
  rw [List.getLast?_cons]
  cases stream.tokens.getLast? <;> rfl

end TokenStream

namespace Scan

open Text (isNameStart isNamePart)

variable {gap body chars : List Char} {c : Char}

/-! ## Gaps -/

/-- Blanks, line breaks and comments, the last of which is a block comment without an end mark. -/
inductive LeavesOpen : List Char → Prop
  | openComment {body : List Char} :
      ¬ ['*', '/'] <:+: body → LeavesOpen ('/' :: '*' :: body)
  | blank {c : Char} {gap : List Char} :
      (isBlank c || isLineBreak c) = true → LeavesOpen gap → LeavesOpen (c :: gap)
  | lineComment {body gap : List Char} :
      (∀ c ∈ body, isLineFeed c = false) → EndsLine gap → LeavesOpen gap →
      LeavesOpen ('/' :: '/' :: (body ++ gap))
  | blockComment {body gap : List Char} :
      ¬ ['*', '/'] <:+: body → LeavesOpen gap →
      LeavesOpen ('/' :: '*' :: (body ++ '*' :: '/' :: gap))

/-- An open comment has a star in it. -/
theorem LeavesOpen.mem_star (h : LeavesOpen gap) : '*' ∈ gap := by
  induction h with
  | openComment | blockComment => simp
  | blank _ _ ih => exact List.mem_cons_of_mem _ ih
  | lineComment _ _ _ ih => simp [ih]

/-- A gap with more characters behind it. -/
def Gap.followedBy (gap : Gap) (after : List Char) : Gap := { gap with rest := gap.rest ++ after }

/-- Gaps in a row are one gap. -/
theorem Gap.prepend_prepend (chars more : List Char) (newline broken : Bool) (gap : Gap) :
    (gap.prepend more broken).prepend chars newline =
      gap.prepend (chars ++ more) (newline || broken) := by
  simp [prepend, Bool.or_assoc]

/-- A line comment goes on up to a line feed. -/
theorem skipGap_line_append (h : ∀ c ∈ body, isLineFeed c = false) (rest : List Char) :
    skipGap .line (body ++ rest) = (skipGap .line rest).prepend body false := by
  induction body with
  | nil => rfl
  | cons c body ih =>
    obtain ⟨hc, hbody⟩ := List.forall_mem_cons.mp h
    rw [List.cons_append, skipGap, if_neg (by simp [hc]), ih hbody, Gap.prepend_prepend]
    rfl

/-- A line break is skipped wherever it stands between comments. -/
theorem skipGap_lineBreak (h : isLineBreak c = true) (rest : List Char) :
    skipGap .between (c :: rest) = (skipGap .between rest).prepend [c] true := by
  have hslash : c ≠ '/' := by
    rintro rfl
    exact absurd h (by decide)
  have hblank : isBlank c = false := by
    rw [Bool.eq_false_iff]
    intro hblank
    simp only [isBlank, Bool.or_eq_true, beq_iff_eq] at hblank
    rcases hblank with (rfl | rfl) | rfl <;> exact absurd h (by decide)
  rw [skipGap_cons fun hc => absurd hc hslash, if_neg (by simp [hblank]), if_pos h]

/-- A blank is skipped. -/
theorem skipGap_blank (h : isBlank c = true) (rest : List Char) :
    skipGap .between (c :: rest) = (skipGap .between rest).prepend [c] false := by
  have hslash : c ≠ '/' := by
    rintro rfl
    exact absurd h (by decide)
  rw [skipGap_cons fun hc => absurd hc hslash, if_pos h]

/-- Line feeds are line breaks. -/
theorem isLineBreak_of_isLineFeed (h : isLineFeed c = true) : isLineBreak c = true := by
  simp [isLineBreak, h]

/-- A line comment is over where its line is. -/
theorem skipGap_line_of_endsLine (h : EndsLine chars) :
    skipGap .line chars = skipGap .between chars := by
  cases chars with
  | nil => rfl
  | cons c rest =>
    have hfeed : isLineFeed c = true := h c rfl
    rw [skipGap_lineBreak (isLineBreak_of_isLineFeed hfeed), skipGap, if_pos hfeed]

/-- A block comment goes on over what holds no end mark of it. -/
theorem skipGap_block_append {star : Bool} (h : ¬ ['*', '/'] <:+: seenOfEnd star ++ body)
    (rest : List Char) :
    ∃ last, skipGap (.block star) (body ++ rest) =
      (skipGap (.block last) rest).prepend body (body.any isLineFeed) := by
  induction body generalizing star with
  | nil => exact ⟨star, rfl⟩
  | cons c body ih =>
    have hslash : (star && c == '/') = false := by
      rw [Bool.eq_false_iff]
      intro hend
      obtain ⟨rfl, hc⟩ := Bool.and_eq_true_iff.mp hend
      obtain rfl := beq_iff_eq.mp hc
      exact h ⟨[], body, rfl⟩
    have hbody : ¬ ['*', '/'] <:+: seenOfEnd (c == '*') ++ body := by
      intro hinfix
      apply h
      by_cases hstar : c = '*'
      · subst hstar
        exact hinfix.trans (List.suffix_append _ _).isInfix
      · have hseen : seenOfEnd (c == '*') = [] := by simp [seenOfEnd, hstar]
        rw [hseen, List.nil_append] at hinfix
        have hsuffix : body <:+ seenOfEnd star ++ c :: body :=
          (List.suffix_cons c body).trans (List.suffix_append _ _)
        exact hinfix.trans hsuffix.isInfix
    obtain ⟨last, hrest⟩ := ih hbody
    refine ⟨last, ?_⟩
    rw [List.cons_append, skipGap]
    simp only [hslash, Bool.false_eq_true, if_false]
    rw [hrest, Gap.prepend_prepend]
    rfl

/-- A block comment is over behind its first end mark. -/
theorem skipGap_block_end (h : ¬ ['*', '/'] <:+: body) (rest : List Char) :
    skipGap (.block false) (body ++ '*' :: '/' :: rest) =
      (skipGap .between rest).prepend (body ++ ['*', '/']) (body.any isLineFeed) := by
  obtain ⟨last, hbody⟩ := @skipGap_block_append _ false h ('*' :: '/' :: rest)
  have hend : skipGap (.block last) ('*' :: '/' :: rest) =
      (skipGap .between rest).prepend ['*', '/'] false := by
    simp [skipGap, Gap.prepend_prepend, isLineFeed]
  rw [hbody, hend, Gap.prepend_prepend, Bool.or_false]

/-- A gap up to the end of a text, with no comment left open, goes on over a line feed. -/
theorem IsTrivia.skipGap_newline (h : IsTrivia [] gap) (hclosed : ¬ LeavesOpen gap)
    (more : List Char) :
    skipGap .between (gap ++ '\n' :: more) =
      (skipGap .between more).prepend (gap ++ ['\n']) true := by
  induction h with
  | none => exact skipGap_lineBreak rfl more
  | @blank c gap hblank _ ih =>
    have hgap := ih fun hopen => hclosed (.blank hblank hopen)
    rw [List.cons_append]
    rcases Bool.or_eq_true_iff.mp hblank with hblank | hbreak
    · rw [skipGap_blank hblank, hgap, Gap.prepend_prepend]
      rfl
    · rw [skipGap_lineBreak hbreak, hgap, Gap.prepend_prepend]
      rfl
  | @lineComment body gap hbody hend _ ih =>
    rw [List.append_nil] at hend
    have hgap := ih fun hopen => hclosed (.lineComment hbody hend hopen)
    have hline : skipGap .line (gap ++ '\n' :: more) = skipGap .between (gap ++ '\n' :: more) := by
      cases gap with
      | nil =>
        refine skipGap_line_of_endsLine fun d hd => ?_
        cases hd
        rfl
      | cons c gap => exact skipGap_line_of_endsLine hend
    rw [List.cons_append, List.cons_append, List.append_assoc, skipGap, skipGap_line_append hbody,
      hline, hgap, Gap.prepend_prepend, Gap.prepend_prepend]
    simp
  | @blockComment body gap hbody _ ih =>
    have hgap := ih fun hopen => hclosed (.blockComment hbody hopen)
    have hblock := skipGap_block_end hbody (gap ++ '\n' :: more)
    have happend : body ++ '*' :: '/' :: gap ++ '\n' :: more =
        body ++ '*' :: '/' :: (gap ++ '\n' :: more) := by simp
    rw [List.cons_append, List.cons_append, happend, skipGap, hblock, hgap, Gap.prepend_prepend,
      Gap.prepend_prepend]
    simp
  | openComment hbody _ => exact absurd (.openComment hbody) hclosed

/-- A gap in front of a token stays the same when more follows, apart from what there is. -/
theorem skipGap_append {region : Region} {chars after : List Char}
    (h : (skipGap region chars).rest ≠ []) (hafter : Apart after) :
    skipGap region (chars ++ after) = (skipGap region chars).followedBy after := by
  fun_induction skipGap region chars with
  | case1 region => exact absurd rfl h
  | case2 rest ih =>
    rw [List.cons_append, List.cons_append, skipGap, ih h]
    rfl
  | case3 rest ih =>
    rw [List.cons_append, List.cons_append, skipGap, ih h]
    rfl
  | case4 c rest hline hblock hblank ih =>
    rw [List.cons_append, skipGap_blank hblank, ih h]
    rfl
  | case5 c rest hline hblock hblank hbreak ih =>
    rw [List.cons_append, skipGap_lineBreak hbreak, ih h]
    rfl
  | case6 c rest hline hblock hblank hbreak =>
    have hstarts : StartsToken (c :: rest) := by
      rw [StartsToken, skipGap, if_neg hblank, if_neg hbreak]
      · exact hline
      · exact hblock
    exact hstarts.again (List.append_nil rest) hafter
  | case7 c rest hfeed ih =>
    rw [List.cons_append, skipGap, if_pos hfeed, ih h]
    rfl
  | case8 c rest hfeed ih =>
    rw [List.cons_append, skipGap, if_neg hfeed, ih h]
    rfl
  | case9 star c rest next ih =>
    rw [List.cons_append, skipGap]
    exact congrArg (Gap.prepend [c] (isLineFeed c)) (ih h)

/-! ## Tokens -/

/-- A token with more characters behind it. -/
def Lexeme.followedBy (lexeme : Lexeme) (after : List Char) : Lexeme :=
  { lexeme with rest := lexeme.rest ++ after }

section

variable {test : Char → Bool} {after : List Char}

/-- A run ends as before. -/
theorem takeWhile_before (chars : List Char) (h : Stops test after) :
    (chars ++ after).takeWhile test = chars.takeWhile test := by
  induction chars with
  | nil => exact takeWhile_append_of_stops (List.forall_mem_nil _) h
  | cons c chars ih => rw [List.cons_append, List.takeWhile_cons, List.takeWhile_cons, ih]

/-- What is left goes on. -/
theorem dropWhile_before (chars : List Char) (h : Stops test after) :
    (chars ++ after).dropWhile test = chars.dropWhile test ++ after := by
  induction chars with
  | nil => exact dropWhile_append_of_stops (List.forall_mem_nil _) h
  | cons c chars ih =>
    rw [List.cons_append, List.dropWhile_cons, List.dropWhile_cons, ih]
    split <;> rfl

end

/-- No point, no fraction. -/
theorem splitFraction_of_stops (h : Stops (· == '.') chars) :
    splitFraction chars = ([], chars) := by
  fun_cases splitFraction chars with
  | case1 rest => exact absurd (h '.' rfl) (by decide)
  | case2 chars hchars => rfl

/-- No sign is split off. -/
theorem splitSign_of_stops (h : Stops isExponentSign chars) : splitSign chars = ([], chars) := by
  cases chars with
  | nil => rfl
  | cons c rest =>
    have hc : (c == '+' || c == '-') = false := h c rfl
    simp [splitSign, hc]

/-- A quoted text ends as before. -/
theorem quotedTail_before {quote : Char} (after : List Char)
    (h : (quotedTail quote chars).kind ≠ .invalid) :
    quotedTail quote (chars ++ after) = (quotedTail quote chars).followedBy after := by
  fun_induction quotedTail quote chars with
  | case1 => exact absurd rfl h
  | case2 c rest hc => exact absurd rfl h
  | case3 c rest hc hquote =>
    rw [List.cons_append, quotedTail.eq_def]
    simp [hc, hquote, Lexeme.followedBy]
  | case4 c hc hquote hslash => exact absurd rfl h
  | case5 c hc hquote hslash d rest ih =>
    have ih := ih h
    rw [List.cons_append, quotedTail.eq_def]
    simp [hc, hquote, hslash, ih, Lexeme.prepend, Lexeme.followedBy]
  | case6 c rest hc hquote hslash ih =>
    have ih := ih h
    rw [List.cons_append, quotedTail.eq_def]
    simp [hc, hquote, hslash, ih, Lexeme.prepend, Lexeme.followedBy]

section

variable {after : List Char} (hafter : Apart after)
variable {first : Char}

include hafter

/-- A token apart stays so. -/
theorem unlessGlued_before {glues : Char → Bool} (hglues : glues ' ' = false ∧ glues '\n' = false)
    {kind : Kind} {text rest : List Char}
    (h : (unlessGlued glues kind text rest).kind ≠ .invalid) :
    unlessGlued glues kind text (rest ++ after) =
      (unlessGlued glues kind text rest).followedBy after := by
  have hstops : Stops glues rest := by
    rw [stops_iff, Bool.eq_false_iff]
    intro hglue
    simp [unlessGlued, hglue] at h
  rw [unlessGlued_eq hstops, unlessGlued_eq (hstops.append (hafter.stops hglues))]
  rfl

/-- A number with a radix ends as before. -/
theorem radixNumber_before {radix : Radix} {lead chars : List Char}
    (h : (radixNumber radix lead chars).kind ≠ .invalid) :
    radixNumber radix lead (chars ++ after) = (radixNumber radix lead chars).followedBy after := by
  have hdigit : Stops (isDigitOf radix) after := hafter.stops (by cases radix <;> decide)
  unfold radixNumber at h ⊢
  dsimp only at h ⊢
  rw [takeWhile_before chars hdigit, dropWhile_before chars hdigit]
  split at h
  · exact absurd rfl h
  · rename_i hdigits
    rw [if_neg hdigits, if_neg hdigits]
    exact unlessGlued_before hafter
      ⟨Text.isNamePart_of_gap (by decide), Text.isNamePart_of_gap (by decide)⟩ h

/-- A fraction ends as before. -/
theorem splitFraction_before (chars : List Char) :
    splitFraction (chars ++ after) =
      ((splitFraction chars).1, (splitFraction chars).2 ++ after) := by
  have hdigit : Stops Char.isDigit after := hafter.stops (by decide)
  fun_cases splitFraction chars with
  | case1 rest =>
    simp only [List.cons_append, splitFraction, takeWhile_before rest hdigit,
      dropWhile_before rest hdigit]
  | case2 chars hchars =>
    have hpoint : Stops (· == '.') chars := by
      intro c hc
      cases chars with
      | nil => cases hc
      | cons d rest =>
        cases hc
        exact beq_eq_false_iff_ne.mpr fun hpoint => hchars rest (by rw [hpoint])
    exact splitFraction_of_stops (hpoint.append (hafter.stops (by decide)))

/-- A sign ends as before. -/
theorem splitSign_before (chars : List Char) :
    splitSign (chars ++ after) = ((splitSign chars).1, (splitSign chars).2 ++ after) := by
  cases chars with
  | nil => exact splitSign_of_stops (hafter.stops (by decide))
  | cons c rest =>
    simp only [List.cons_append, splitSign]
    split <;> rfl

/-- An exponent ends as before. -/
theorem splitExponent_before (chars : List Char) :
    splitExponent (chars ++ after) =
      ((splitExponent chars).1, (splitExponent chars).2 ++ after) := by
  have hdigit : Stops Char.isDigit after := hafter.stops (by decide)
  cases chars with
  | nil => exact splitExponent_of_stops (hafter.stops (by decide))
  | cons c rest =>
    rw [List.cons_append, splitExponent_cons, splitExponent_cons, splitSign_before hafter rest]
    simp only [takeWhile_before _ hdigit, dropWhile_before _ hdigit]
    split <;> rfl

/-- A decimal number ends as before. -/
theorem decimalNumber_before (h : (decimalNumber first chars).kind ≠ .invalid) :
    decimalNumber first (chars ++ after) = (decimalNumber first chars).followedBy after := by
  have hdigit : Stops Char.isDigit after := hafter.stops (by decide)
  have hsplit : splitNumber (chars ++ after) =
      ((splitNumber chars).1, (splitNumber chars).2 ++ after) := by
    simp only [splitNumber, takeWhile_before chars hdigit, dropWhile_before chars hdigit,
      splitFraction_before hafter, splitExponent_before hafter]
  rw [decimalNumber_eq] at h ⊢
  rw [hsplit, decimalNumber_eq]
  exact unlessGlued_before hafter
    ⟨Text.isNameStart_of_gap (by decide), Text.isNameStart_of_gap (by decide)⟩ h

/-- A number that begins with a point ends as before. -/
theorem pointNumber_before (chars : List Char) :
    (pointNumber (chars ++ after)).prepend ['.'] =
      ((pointNumber chars).prepend ['.']).followedBy after := by
  have hdigit : Stops Char.isDigit after := hafter.stops (by decide)
  simp only [pointNumber, takeWhile_before chars hdigit, dropWhile_before chars hdigit,
    splitExponent_before hafter, Lexeme.prepend, Lexeme.followedBy]

/-- A name or word ends as before. -/
theorem nameOrWord_before (first : Char) (chars : List Char) :
    nameOrWord first (chars ++ after) = (nameOrWord first chars).followedBy after := by
  have hpart : Stops isNamePart after :=
    hafter.stops ⟨Text.isNamePart_of_gap (by decide), Text.isNamePart_of_gap (by decide)⟩
  simp only [nameOrWord, takeWhile_before chars hpart, dropWhile_before chars hpart,
    Lexeme.followedBy]

/-- A number ends as before. -/
theorem number_before (h : (number first chars).kind ≠ .invalid) :
    number first (chars ++ after) = (number first chars).followedBy after := by
  cases chars with
  | nil =>
    have hstops : Stops (announcesRadix first) after :=
      hafter.stops (by simp [announcesRadix, radixOfLetter?])
    rw [List.nil_append, number_of_stops hstops]
    exact decimalNumber_before hafter h
  | cons c rest =>
    unfold number at h ⊢
    dsimp only [List.cons_append] at h ⊢
    split
    · rename_i radix hradix
      simp only [hradix] at h ⊢
      exact radixNumber_before hafter h
    · rename_i hradix
      simp only [hradix] at h ⊢
      exact decimalNumber_before hafter h

/-- The longest punctuator at the beginning does not depend on what is apart from it. -/
theorem longestAt?_before (chars : List Char) :
    Mark.longestAt? (chars ++ after) = Mark.longestAt? chars := by
  unfold Mark.longestAt?
  congr 1
  funext mark
  rw [Bool.eq_iff_iff, List.isPrefixOf_iff_prefix, List.isPrefixOf_iff_prefix]
  constructor
  · exact isPrefix_of_append_apart (not_mem_spelling mark) hafter
  · exact fun hprefix => hprefix.trans (List.prefix_append chars after)

/-- A mark ends as before. -/
theorem markOrInvalid_before (h : (markOrInvalid first chars).kind ≠ .invalid) :
    markOrInvalid first (chars ++ after) = (markOrInvalid first chars).followedBy after := by
  cases hmark : Mark.longestAt? (first :: chars) with
  | none => simp [markOrInvalid, hmark] at h
  | some mark =>
    have hagain : Mark.longestAt? (first :: (chars ++ after)) = some mark :=
      (longestAt?_before hafter (first :: chars)).trans hmark
    have hprefix := List.find?_some hmark
    have hlength : mark.spelling.toList.length ≤ (first :: chars).length :=
      (List.isPrefixOf_iff_prefix.mp hprefix).length_le
    simp only [markOrInvalid, hmark, hagain, Lexeme.followedBy]
    rw [← List.cons_append, List.take_append_of_le_length hlength,
      List.drop_append_of_le_length hlength]

/-- A valid token stays the same when more follows, apart from what there is. -/
theorem lexeme_before (h : (lexeme first chars).kind ≠ .invalid) :
    lexeme first (chars ++ after) = (lexeme first chars).followedBy after := by
  have hdigits : ((chars ++ after).head?.map Char.isDigit).getD false =
      (chars.head?.map Char.isDigit).getD false := by
    cases chars with
    | nil => exact stops_iff.mp (hafter.stops (by decide))
    | cons c chars => rfl
  simp only [lexeme_eq] at h ⊢
  rw [hdigits]
  by_cases hquote : first == '"' || first == '\''
  · simp only [if_pos hquote] at h ⊢
    rw [quotedTail_before after h]
    rfl
  simp only [if_neg hquote] at h ⊢
  by_cases hdigit : first.isDigit
  · simp only [if_pos hdigit] at h ⊢
    exact number_before hafter h
  simp only [if_neg hdigit] at h ⊢
  by_cases hname : isNameStart first
  · simp only [if_pos hname] at h ⊢
    exact nameOrWord_before hafter first chars
  simp only [if_neg hname] at h ⊢
  by_cases hpoint : first == '.' && (chars.head?.map Char.isDigit).getD false
  · simp only [if_pos hpoint] at h ⊢
    exact pointNumber_before hafter chars
  · simp only [if_neg hpoint] at h ⊢
    exact markOrInvalid_before hafter h

end

/-! ## Streams -/

/-- A line break behind the gap marks the next token. -/
theorem scanAfter_newline (start : Nat) (newline : Bool) (chars : List Char) :
    scanAfter start true chars = (scanAfter start newline chars).onNewLine := by
  cases chars <;> rfl

/-- A gap with a line feed at its end puts what follows on a new line. -/
theorem scanFrom_gap (h : IsTrivia [] gap) (hclosed : ¬ LeavesOpen gap) (offset : Nat)
    (more : List Char) :
    scanFrom offset (gap ++ '\n' :: more) =
      (scanFrom (offset + Source.byteLength gap + 1) more).onNewLine := by
  have hfeed : Source.byteLength ['\n'] = 1 := rfl
  have hstart (skipped : List Char) : offset + Source.byteLength (gap ++ ['\n'] ++ skipped) =
      offset + Source.byteLength gap + 1 + Source.byteLength skipped := by
    simp only [Source.byteLength_append, hfeed]
    omega
  rw [scanFrom_eq, h.skipGap_newline hclosed, scanFrom_eq (offset + Source.byteLength gap + 1),
    ← scanAfter_newline, ← hstart]
  rfl

/-- The tokens of two texts with a line feed between them. -/
theorem scanFrom_append_newline {offset : Nat}
    (hvalid : ∀ token ∈ (scanFrom offset chars).tokens, token.kind ≠ .invalid)
    (hclosed : ∀ before gap, chars = before ++ gap →
      offset + Source.byteLength before = (scanFrom offset chars).lastStop offset →
      ¬ LeavesOpen gap)
    (more : List Char) :
    scanFrom offset (chars ++ '\n' :: more) = (scanFrom offset chars).followedBy
      (scanFrom (offset + Source.byteLength chars + 1) more).onNewLine := by
  fun_induction scanFrom offset chars with
  | case1 offset chars gap start hrest =>
    have htrivia := isTrivia_skipped chars
    have hall := skipped_append_rest .between chars
    rw [hrest] at htrivia hall
    rw [List.append_nil] at hall
    rw [hall] at htrivia
    exact scanFrom_gap htrivia (hclosed [] chars rfl rfl) offset more
  | case2 offset chars gap start first rest hrest read stop token later ih =>
    obtain ⟨hkind, hlater⟩ := List.forall_mem_cons.mp hvalid
    have hall : gap.skipped ++ read.text ++ read.rest = chars := skipped_append_lexeme hrest
    have hafter : Apart ('\n' :: more) := fun c hc => .inr (Option.some.inj hc).symm
    have hgap : skipGap .between (chars ++ '\n' :: more) =
        ⟨gap.skipped, gap.newline, first :: (rest ++ '\n' :: more)⟩ := by
      have hne : gap.rest ≠ [] := hrest ▸ List.cons_ne_nil first rest
      rw [skipGap_append hne hafter, Gap.followedBy, hrest]
      rfl
    have hread : lexeme first (rest ++ '\n' :: more) =
        ⟨read.kind, read.text, read.rest ++ '\n' :: more⟩ := lexeme_before hafter hkind
    have hrestClosed : ∀ before gap, read.rest = before ++ gap →
        stop + Source.byteLength before = later.lastStop stop → ¬ LeavesOpen gap := by
      intro before last hsplit hstop
      refine hclosed (gap.skipped ++ read.text ++ before) last ?_ ?_
      · rw [← hall, hsplit, List.append_assoc _ before]
      · have hspan : token.span.stop = stop := rfl
        rw [TokenStream.lastStop_cons, hspan, ← hstop, Source.byteLength_append,
          Source.byteLength_append]
        omega
    have hend : offset + Source.byteLength chars = stop + Source.byteLength read.rest := by
      rw [← hall, Source.byteLength_append, Source.byteLength_append]
      omega
    rw [scanFrom_of_lexeme hgap hread, hend]
    change ({ scanFrom stop _ with tokens := token :: _ } : TokenStream) = _
    rw [ih hlater hrestClosed]
    rfl

/-- Where a text stands does not matter for what its tokens are. -/
theorem views_scanFrom (offset other : Nat) (chars : List Char) :
    (scanFrom offset chars).views = (scanFrom other chars).views := by
  fun_induction scanFrom offset chars generalizing other with
  | case1 offset chars gap start hrest =>
    rw [scanFrom_eq, hrest]
    rfl
  | case2 offset chars gap start first rest hrest read stop token later ih =>
    rw [scanFrom_eq other, hrest]
    exact congrArg (token.view :: ·) (ih _)

end Scan

/-- The text ends inside a block comment that lacks its end mark: such a comment is the last thing
behind the last token. -/
def Source.EndsInComment (source : String) : Prop :=
  ∃ before gap, source.toList = before ++ gap ∧
    byteLength before = (TokenStream.ofSource source).lastStop 0 ∧ Scan.LeavesOpen gap

/-- A text without a star holds no block comment. -/
theorem Source.not_endsInComment {source : String} (h : '*' ∉ source.toList) :
    ¬ EndsInComment source := by
  rintro ⟨before, gap, hsplit, -, hopen⟩
  exact h (hsplit ▸ List.mem_append_right before hopen.mem_star)

/-- The tokens of two source texts with a line feed between them are those of the first and, on a
new line, those of the second. -/
theorem TokenStream.ofSource_append_newline {first : String} (second : String)
    (hvalid : ∀ token ∈ (ofSource first).tokens, token.kind ≠ .invalid)
    (hclosed : ¬ Source.EndsInComment first) :
    ∃ later : TokenStream, later.views = (ofSource second).views ∧
      ofSource (first ++ "\n" ++ second) = (ofSource first).followedBy later.onNewLine := by
  have hsource : (first ++ "\n" ++ second).toList = first.toList ++ '\n' :: second.toList := by
    rw [String.toList_append, String.toList_append, List.append_assoc]
    rfl
  refine ⟨Scan.scanFrom (0 + Source.byteLength first.toList + 1) second.toList,
    Scan.views_scanFrom _ 0 second.toList, ?_⟩
  rw [ofSource, hsource]
  refine Scan.scanFrom_append_newline hvalid ?_ second.toList
  intro before gap hsplit hstop hopen
  exact hclosed ⟨before, gap, hsplit, (Nat.zero_add _).symm.trans hstop, hopen⟩

end TreeScript
