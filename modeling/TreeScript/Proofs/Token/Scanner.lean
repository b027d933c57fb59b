import TreeScript.Proofs.Token.Tiling

/-!
# Tokens one at a time

A scanner hands out the tokens of a text one by one, as it is asked for them, and says that the
text has ended when there are no more. `Scanner.answer` is what it says to each question. The
answers are the tokens of the stream that is scanned at once, and then the end of the text for
ever; the spans of the tokens are not empty and follow one another, with gaps of trivia between.
-/

namespace TreeScript

/-- A place in a text from which tokens are asked for. -/
structure Scanner where
  offset : Nat
  rest : List Char

namespace Scanner

/-- What a scanner says when it is asked for a token. -/
inductive Answer where
  | token (token : Token)
  /-- There is no token. A line break may come before the end, too. -/
  | ending (span : Span) (newlineBefore : Bool)
deriving DecidableEq, Repr

/-- The beginning of a source text. -/
def ofSource (source : String) : Scanner := ⟨0, source.toList⟩

/-- Skip a gap and read the token after it. -/
def next (scanner : Scanner) : Answer × Scanner :=
  let gap := Scan.skipGap .between scanner.rest
  let start := scanner.offset + Source.byteLength gap.skipped
  match gap.rest with
  | [] => (.ending (Span.point start) gap.newline, ⟨start, []⟩)
  | first :: rest =>
    let read := Scan.lexeme first rest
    let stop := start + Source.byteLength read.text
    (.token ⟨read.kind, String.ofList read.text, ⟨start, stop⟩, gap.newline⟩, ⟨stop, read.rest⟩)

/-- What a scanner says when it is asked again and again, counted from zero. -/
def answer (scanner : Scanner) : Nat → Answer
  | 0 => scanner.next.1
  | count + 1 => scanner.next.2.answer count

/-- At the end of a text, a scanner stays there. -/
theorem answer_at_end (offset count : Nat) :
    answer ⟨offset, []⟩ count = .ending (Span.point offset) false := by
  induction count with
  | zero => rfl
  | succ count ih => exact ih

/-- The answers are the tokens of the stream, and then its end. -/
theorem answer_eq (offset : Nat) (chars : List Char) (count : Nat) :
    let stream := Scan.scanFrom offset chars
    match stream.tokens[count]? with
    | some token => answer ⟨offset, chars⟩ count = .token token
    | none => ∃ newline, answer ⟨offset, chars⟩ count =
        .ending (Span.point stream.endOffset) newline := by
  fun_induction Scan.scanFrom offset chars generalizing count with
  | case1 offset chars gap start hrest =>
    have hnext : next ⟨offset, chars⟩ = (.ending (Span.point start) gap.newline, ⟨start, []⟩) := by
      simp only [next, gap, start, hrest]
    cases count with
    | zero => exact ⟨gap.newline, congrArg Prod.fst hnext⟩
    | succ count =>
      refine ⟨false, ?_⟩
      rw [answer, hnext]
      exact answer_at_end start count
  | case2 offset chars gap start first rest hrest read stop token later ih =>
    have hnext : next ⟨offset, chars⟩ = (.token token, ⟨stop, read.rest⟩) := by
      simp only [next, gap, hrest]
      rfl
    cases count with
    | zero => exact congrArg Prod.fst hnext
    | succ count =>
      have hlater := ih count
      rw [answer, hnext]
      exact hlater

end Scanner

namespace Scan

/-- What stands between tokens and in no comment is a blank or breaks the line. -/
theorem isBlank_or_isLineBreak_iff (c : Char) :
    (isBlank c || isLineBreak c) = true ↔
      c ∈ [' ', '\t', '\ufeff'] ∨ c ∈ ['\n', '\r', '\u2028', '\u2029'] := by
  simp [isBlank, isLineBreak, isLineFeed, or_assoc]

/-- Two characters are line feeds. -/
theorem isLineFeed_iff (c : Char) : isLineFeed c = true ↔ c ∈ ['\n', '\r'] := by
  simp [isLineFeed]

/-- Tokens that tile a text are not empty. They follow one another, and none begins before the
text does. -/
theorem Tiles.ordered {offset : Nat} {chars : List Char} {tokens : List Token}
    (h : Tiles offset chars tokens) :
    (∀ token ∈ tokens, offset ≤ token.span.start ∧ token.span.start < token.span.stop) ∧
      tokens.Pairwise fun first second => first.span.stop ≤ second.span.start := by
  induction h with
  | gap => exact ⟨List.forall_mem_nil _, .nil⟩
  | @token offset gap rest token tokens _ _ htext hstart hstop _ ih =>
    obtain ⟨hbounds, hpairs⟩ := ih
    have hsize : 0 < Source.byteLength token.text.toList :=
      Source.byteLength_pos fun hnil => htext (String.toList_eq_nil_iff.mp hnil)
    constructor
    · intro other hother
      rcases List.mem_cons.mp hother with rfl | hlater
      · omega
      · have := hbounds other hlater
        omega
    · exact .cons (fun other hlater => (hbounds other hlater).1) hpairs

end Scan

/-- A scanner that is asked again and again says the tokens of the stream in order and then, for
ever, that the text ends where it ends. The spans of the tokens are not empty, begin and end
between characters, and each one begins no earlier than the one before it ends. What stands before
the first token, between two tokens and after the last one is made of blanks, line breaks and
comments; the last two parts say which characters those are, and where a line comment ends. -/
theorem Scanner.answers_tile (source : String) :
    let tokens := (TokenStream.ofSource source).tokens
    let size := Source.byteLength source.toList
    (∀ count,
      match tokens[count]? with
      | some token => (Scanner.ofSource source).answer count = .token token
      | none => ∃ newline,
          (Scanner.ofSource source).answer count = .ending (Span.point size) newline) ∧
      (∀ token ∈ tokens, token.span.start < token.span.stop ∧
        Source.slice? source token.span = some token.text.toList) ∧
      (tokens.Pairwise fun first second => first.span.stop ≤ second.span.start) ∧
      Scan.Tiles 0 source.toList tokens ∧
      (∀ c, (Scan.isBlank c || Scan.isLineBreak c) = true ↔
        c ∈ [' ', '\t', '\ufeff'] ∨ c ∈ ['\n', '\r', '\u2028', '\u2029']) ∧
      ∀ c, Scan.isLineFeed c = true ↔ c ∈ ['\n', '\r'] := by
  intro tokens size
  have htiles : Scan.Tiles 0 source.toList tokens := Scan.tiles_scanFrom 0 source.toList
  obtain ⟨hbounds, hpairs⟩ := htiles.ordered
  refine ⟨fun count => ?_, fun token htoken => ⟨(hbounds token htoken).2, ?_⟩, hpairs, htiles,
    Scan.isBlank_or_isLineBreak_iff, Scan.isLineFeed_iff⟩
  · have hsize : (Scan.scanFrom 0 source.toList).endOffset = size := by
      rw [Scan.endOffset_scanFrom, Nat.zero_add]
    rw [← hsize]
    exact answer_eq 0 source.toList count
  · have hslice := htiles.slice? Source.byteLength_nil token htoken
    rw [List.nil_append, String.ofList_toList] at hslice
    exact hslice

end TreeScript
