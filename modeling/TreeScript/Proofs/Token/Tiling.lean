import Mathlib.Data.List.Infix
import TreeScript.Proofs.Source.Boundaries
import TreeScript.Proofs.Token.Spelling

/-!
# Tokens and gaps tile a source text

Between the tokens of a source text stand gaps of blanks, line breaks and comments, and nothing
else: `IsTrivia` says what a gap may be, without the reader that skips it, and `Tiles` says that
characters are made of tokens and gaps in turn, with every token at its span. The stream that is
scanned from a text tiles it. So the text under a token's span is the token's text, and the stream
ends where the text does.
-/

namespace TreeScript

namespace Scan

/-! ## Gaps -/

/-- Nothing, or the end of a line first. -/
def EndsLine (chars : List Char) : Prop := ∀ c, chars.head? = some c → isLineFeed c = true

/-- Blanks, line breaks and comments in front of the characters `after`. A line comment goes on up
to the end of its line, and a block comment up to its first end mark; only at the end of the text
may a block comment lack one. -/
inductive IsTrivia (after : List Char) : List Char → Prop
  | none : IsTrivia after []
  | blank {c : Char} {gap : List Char} :
      (isBlank c || isLineBreak c) = true → IsTrivia after gap → IsTrivia after (c :: gap)
  | lineComment {body gap : List Char} :
      (∀ c ∈ body, isLineFeed c = false) → EndsLine (gap ++ after) → IsTrivia after gap →
      IsTrivia after ('/' :: '/' :: (body ++ gap))
  | blockComment {body gap : List Char} :
      ¬ ['*', '/'] <:+: body → IsTrivia after gap →
      IsTrivia after ('/' :: '*' :: (body ++ '*' :: '/' :: gap))
  | openComment {body : List Char} :
      ¬ ['*', '/'] <:+: body → after = [] → IsTrivia after ('/' :: '*' :: body)

/-- Trivia stands in front of the characters. -/
def BeginsTrivia (chars : List Char) : Prop :=
  ∃ gap after, gap ≠ [] ∧ IsTrivia after gap ∧ chars = gap ++ after

/-- What has been seen of an end mark inside a block comment. -/
def seenOfEnd (star : Bool) : List Char := if star then ['*'] else []

/-- What a region of a gap may be skipped for: the gap itself, or the rest of a comment with the
gap after it. -/
def Region.Skips : Region → List Char → List Char → Prop
  | .between, skipped, after => IsTrivia after skipped
  | .line, skipped, after =>
    ∃ body gap, skipped = body ++ gap ∧ (∀ c ∈ body, isLineFeed c = false) ∧
      EndsLine (gap ++ after) ∧ IsTrivia after gap
  | .block star, skipped, after =>
    (∃ body gap, seenOfEnd star ++ skipped = body ++ '*' :: '/' :: gap ∧ ¬ ['*', '/'] <:+: body ∧
      IsTrivia after gap) ∨
      (¬ ['*', '/'] <:+: seenOfEnd star ++ skipped ∧ after = [])

/-- No end mark begins with a character that is not the star of one. -/
theorem infix_end_cons {c : Char} {chars : List Char} (h : c = '*' → chars.head? ≠ some '/') :
    ['*', '/'] <:+: c :: chars ↔ ['*', '/'] <:+: chars := by
  rw [List.infix_cons_iff]
  refine ⟨?_, .inr⟩
  rintro (hleads | hends)
  · obtain ⟨rfl, hrest⟩ := List.cons_prefix_cons.mp hleads
    obtain ⟨tail, rfl⟩ := hrest
    exact absurd rfl (h rfl)
  · exact hends

/-- Inside a block comment, a character that does not complete its end mark goes to the body. -/
theorem Region.Skips.block {star : Bool} {c : Char} {skipped after : List Char}
    (hc : (star && c == '/') = false) (h : (Region.block (c == '*')).Skips skipped after) :
    (Region.block star).Skips (c :: skipped) after := by
  by_cases hstar : c = '*'
  · subst hstar
    cases star with
    | false => exact h
    | true =>
      -- Two stars in a row: the first one belongs to no end mark.
      rcases h with ⟨body, gap, hskipped, hbody, hgap⟩ | ⟨hopen, hafter⟩
      · refine .inl ⟨'*' :: body, gap, congrArg ('*' :: ·) hskipped, ?_, hgap⟩
        rw [infix_end_cons]
        · exact hbody
        · intro _ hhead
          cases body with
          | nil => cases hhead
          | cons d body =>
            cases hhead
            exact absurd (List.cons.inj hskipped).1 (by decide)
      · refine .inr ⟨?_, hafter⟩
        change ¬ ['*', '/'] <:+: '*' :: ('*' :: skipped)
        rw [infix_end_cons (by simp)]
        exact hopen
  · have hends (chars : List Char) :
        ['*', '/'] <:+: seenOfEnd star ++ c :: chars ↔ ['*', '/'] <:+: chars := by
      have hcons : ['*', '/'] <:+: c :: chars ↔ ['*', '/'] <:+: chars :=
        infix_end_cons fun h => absurd h hstar
      cases star with
      | false => exact hcons
      | true =>
        have hslash : c ≠ '/' := by simpa using hc
        have hseen : ['*', '/'] <:+: '*' :: c :: chars ↔ ['*', '/'] <:+: c :: chars :=
          infix_end_cons fun _ h => hslash (Option.some.inj h)
        exact hseen.trans hcons
    have hseen : seenOfEnd (c == '*') = [] := by simp [seenOfEnd, hstar]
    rcases h with ⟨body, gap, hskipped, hbody, hgap⟩ | ⟨hopen, hafter⟩
    · rw [hseen, List.nil_append] at hskipped
      refine .inl ⟨seenOfEnd star ++ c :: body, gap, ?_, (hends body).not.mpr hbody, hgap⟩
      rw [hskipped, List.append_assoc, List.cons_append]
    · rw [hseen, List.nil_append] at hopen
      exact .inr ⟨(hends skipped).not.mpr hopen, hafter⟩

/-- What is skipped is a gap. -/
theorem skips_skipGap (region : Region) (chars : List Char) :
    region.Skips (skipGap region chars).skipped (skipGap region chars).rest := by
  fun_induction skipGap region chars with
  | case1 region =>
    cases region with
    | between => exact .none
    | line =>
      refine ⟨[], [], rfl, List.forall_mem_nil _, ?_, .none⟩
      intro c hc
      cases hc
    | block star => exact .inr ⟨by cases star <;> decide, rfl⟩
  | case2 rest ih =>
    obtain ⟨body, gap, hskipped, hbody, hend, hgap⟩ := ih
    change IsTrivia _ ('/' :: '/' :: (skipGap .line rest).skipped)
    rw [hskipped]
    exact .lineComment hbody hend hgap
  | case3 rest ih =>
    change IsTrivia _ ('/' :: '*' :: (skipGap (.block false) rest).skipped)
    rcases ih with ⟨body, gap, hskipped, hbody, hgap⟩ | ⟨hopen, hafter⟩
    · rw [seenOfEnd, if_neg (by decide), List.nil_append] at hskipped
      rw [hskipped]
      exact .blockComment hbody hgap
    · exact .openComment hopen hafter
  | case4 c rest hline hblock hblank ih => exact .blank (by rw [hblank, Bool.true_or]) ih
  | case5 c rest hline hblock hblank hbreak ih => exact .blank (by rw [hbreak, Bool.or_true]) ih
  | case6 => exact .none
  | case7 c rest hfeed ih =>
    have hbreak : (isBlank c || isLineBreak c) = true := by
      unfold isLineBreak
      simp [hfeed]
    refine ⟨[], c :: (skipGap .between rest).skipped, rfl, List.forall_mem_nil _, ?_,
      .blank hbreak ih⟩
    rintro d hd
    cases hd
    exact hfeed
  | case8 c rest hfeed ih =>
    obtain ⟨body, gap, hskipped, hbody, hend, hgap⟩ := ih
    refine ⟨c :: body, gap, ?_, ?_, hend, hgap⟩
    · change c :: (skipGap .line rest).skipped = _
      rw [hskipped, List.cons_append]
    · exact List.forall_mem_cons.mpr ⟨by simpa using hfeed, hbody⟩
  | case9 star c rest next ih =>
    change (Region.block star).Skips (c :: (skipGap next rest).skipped) (skipGap next rest).rest
    by_cases hend : (star && c == '/') = true
    · have hnext : next = .between := if_pos hend
      rw [hnext] at ih ⊢
      simp only [Bool.and_eq_true, beq_iff_eq] at hend
      obtain ⟨rfl, rfl⟩ := hend
      exact .inl ⟨[], (skipGap .between rest).skipped, rfl, by decide, ih⟩
    · have hnext : next = .block (c == '*') := if_neg hend
      rw [hnext] at ih ⊢
      exact ih.block (by simpa using hend)

/-- A gap that is skipped is trivia in front of what is left. -/
theorem isTrivia_skipped (chars : List Char) :
    IsTrivia (skipGap .between chars).rest (skipGap .between chars).skipped :=
  skips_skipGap .between chars

/-- Where a token starts, no trivia stands. -/
theorem StartsToken.not_beginsTrivia {chars : List Char} (h : StartsToken chars) :
    ¬ BeginsTrivia chars := by
  rintro ⟨gap, after, hne, htrivia, rfl⟩
  cases htrivia with
  | none => exact hne rfl
  | blank hblank _ =>
    obtain ⟨hnoBlank, hnoBreak, -⟩ := (startsToken_cons_iff _ _).mp h
    rw [hnoBlank, hnoBreak] at hblank
    cases hblank
  | lineComment _ _ _ | blockComment _ _ | openComment _ _ =>
    obtain ⟨-, -, hcomment⟩ := (startsToken_cons_iff _ _).mp h
    exact absurd (hcomment rfl _ rfl) (by decide)

/-! ## Tiles -/

/-- The characters, the first of which stands at `offset`, are the tokens with gaps of trivia before
them, between them and after them. Every token is as long as its text and stands at its span, and
no more trivia is in front of it. -/
inductive Tiles : Nat → List Char → List Token → Prop
  | gap {offset : Nat} {gap : List Char} : IsTrivia [] gap → Tiles offset gap []
  | token {offset : Nat} {gap rest : List Char} {token : Token} {tokens : List Token} :
      IsTrivia (token.text.toList ++ rest) gap → ¬ BeginsTrivia (token.text.toList ++ rest) →
      token.text ≠ "" → token.span.start = offset + Source.byteLength gap →
      token.span.stop = token.span.start + Source.byteLength token.text.toList →
      Tiles token.span.stop rest tokens →
      Tiles offset (gap ++ token.text.toList ++ rest) (token :: tokens)

/-- The first gap, the token after it and what is left make up the characters. -/
theorem skipped_append_lexeme {chars : List Char} {first : Char} {rest : List Char}
    (hrest : (skipGap .between chars).rest = first :: rest) :
    (skipGap .between chars).skipped ++ (lexeme first rest).text ++ (lexeme first rest).rest =
      chars := by
  rw [List.append_assoc, lexeme_append, ← hrest, skipped_append_rest]

/-- The tokens that are scanned tile the characters. -/
theorem tiles_scanFrom (offset : Nat) (chars : List Char) :
    Tiles offset chars (scanFrom offset chars).tokens := by
  fun_induction scanFrom offset chars with
  | case1 offset chars gap start hrest =>
    have htrivia := isTrivia_skipped chars
    have hall := skipped_append_rest .between chars
    rw [hrest] at htrivia hall
    rw [List.append_nil] at hall
    rw [hall] at htrivia
    exact .gap htrivia
  | case2 offset chars gap start first rest hrest read stop token later ih =>
    have hall : gap.skipped ++ read.text ++ read.rest = chars := skipped_append_lexeme hrest
    have htext : token.text.toList = read.text := String.toList_ofList
    have hlexeme : read.text ++ read.rest = gap.rest := (lexeme_append first rest).trans hrest.symm
    rw [← hall, ← htext]
    refine .token ?_ ?_ ?_ rfl ?_ ih
    · rw [htext, hlexeme]
      exact isTrivia_skipped chars
    · rw [htext, hlexeme]
      exact (startsToken_rest_skipGap .between chars).not_beginsTrivia
    · intro hempty
      rw [hempty] at htext
      exact lexeme_ne_nil first rest htext.symm
    · rw [htext]

/-- The stream of some characters ends where they do. -/
theorem endOffset_scanFrom (offset : Nat) (chars : List Char) :
    (scanFrom offset chars).endOffset = offset + Source.byteLength chars := by
  fun_induction scanFrom offset chars with
  | case1 offset chars gap start hrest =>
    have hall := skipped_append_rest .between chars
    rw [hrest, List.append_nil] at hall
    rw [← hall]
  | case2 offset chars gap start first rest hrest read stop token later ih =>
    have hall : gap.skipped ++ read.text ++ read.rest = chars := skipped_append_lexeme hrest
    change later.endOffset = _
    rw [ih, ← hall]
    simp only [Source.byteLength_append]
    omega

/-- In a text that is tiled from some place on, the characters under the span of a token are those
of the token. -/
theorem Tiles.slice? {offset : Nat} {chars : List Char} {tokens : List Token}
    (h : Tiles offset chars tokens) {before : List Char}
    (hbefore : Source.byteLength before = offset) :
    ∀ token ∈ tokens, Source.slice? (String.ofList (before ++ chars)) token.span =
      some token.text.toList := by
  induction h generalizing before with
  | gap => exact fun _ hmem => nomatch hmem
  | @token offset gap rest token tokens _ _ _ hstart hstop _ ih =>
    have hspan : token.span = ⟨Source.byteLength (before ++ gap),
        Source.byteLength (before ++ gap) + Source.byteLength token.text.toList⟩ := by
      have hends : token.span = ⟨token.span.start, token.span.stop⟩ := rfl
      rw [hends, hstop, hstart, Source.byteLength_append, hbefore]
    intro other hother
    rcases List.mem_cons.mp hother with rfl | hlater
    · rw [hspan, ← List.append_assoc, ← List.append_assoc]
      exact Source.slice?_append (before ++ gap) _ rest
    · have hmore : Source.byteLength (before ++ gap ++ token.text.toList) = token.span.stop := by
        rw [hspan, Source.byteLength_append]
      have hslice := ih hmore other hlater
      simpa only [List.append_assoc] using hslice

end Scan

end TreeScript
