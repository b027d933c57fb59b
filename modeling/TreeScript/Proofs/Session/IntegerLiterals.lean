import TreeScript.Proofs.Lowering.NumericLiteral
import TreeScript.Proofs.Session.SingleExpression
import TreeScript.Proofs.Token.NumberEnds

/-!
# Integers as programs

A run of digits with an end mark is a program. Leading zeros and the two widths of integer literals
leave no trace in its value: below `2 ^ 63` it is the integer that the digits denote, and with a
minus sign in front it is the negated one. From `2 ^ 63` on it is never an integer, but a number in
floating point, or rejected where its double is not finite.
-/

namespace TreeScript

/-! ## Tokens -/

namespace Scan

open Text (isNameStart)

/-- Digits are a number by themselves. -/
theorem splitNumber_digits {digits : List Char} (h : ∀ c ∈ digits, c.isDigit = true) :
    splitNumber (digits ++ [';']) = (digits, [';']) := by
  induction digits with
  | nil => rfl
  | cons digit rest ih =>
    obtain ⟨hdigit, hrest⟩ := List.forall_mem_cons.mp h
    rw [List.cons_append, splitNumber_cons_of_isDigit hdigit, ih hrest]

/-- Digits in front of an end mark are a number. -/
theorem lexeme_digits {first : Char} {digits : List Char}
    (h : ∀ c ∈ first :: digits, c.isDigit = true) :
    lexeme first (digits ++ [';']) = ⟨.number, first :: digits, [';']⟩ := by
  obtain ⟨hfirst, hdigits⟩ := List.forall_mem_cons.mp h
  have hletter : Stops (fun c => (radixOfLetter? c).isSome) (digits ++ [';']) := by
    refine Stops.append (fun c hc => ?_) (stops_cons rfl [])
    rw [radixOfLetter?_of_isDigit (hdigits c (List.mem_of_mem_head? hc))]
    rfl
  rw [lexeme_of_isDigit hfirst, number_eq_decimalNumber hletter, decimalNumber_eq,
    splitNumber_digits hdigits]
  rfl

/-- No mark has a digit in it. -/
theorem not_isDigit_of_mem_spelling (mark : Mark) :
    ∀ c ∈ mark.spelling.toList, c.isDigit = false := by
  have hall : (mark.spelling.toList.all fun c => !c.isDigit) = true := by
    cases mark <;> decide
  simpa using hall

/-- No punctuator goes on with a digit. -/
theorem isLongest_before_digit (mark : Mark) {digit : Char} (h : digit.isDigit = true)
    (rest : List Char) :
    IsLongest IsSpelling mark.spelling.toList (mark.spelling.toList ++ digit :: rest) := by
  refine ⟨⟨mark, rfl⟩, List.prefix_append _ _, ?_⟩
  rintro _ ⟨other, rfl⟩ hleads
  by_contra hlonger
  -- What is longer takes the digit in.
  obtain ⟨more, hmore⟩ := List.prefix_of_prefix_length_le (List.prefix_append _ (digit :: rest))
    hleads (Nat.le_of_not_le hlonger)
  rw [← hmore, List.prefix_append_right_inj] at hleads
  cases more with
  | nil =>
    rw [← hmore, List.append_nil] at hlonger
    exact hlonger le_rfl
  | cons c more =>
    obtain ⟨rfl, -⟩ := List.cons_prefix_cons.mp hleads
    have hmem : c ∈ other.spelling.toList := by simp [← hmore]
    rw [not_isDigit_of_mem_spelling other c hmem] at h
    cases h

/-- A minus before a digit is a mark. -/
theorem lexeme_minus {digit : Char} (h : digit.isDigit = true) (rest : List Char) :
    lexeme '-' (digit :: rest) = ⟨.mark .minus, ['-'], digit :: rest⟩ := by
  have hkind : (lexeme '-' (digit :: rest)).kind = .mark .minus := by
    refine kind_lexeme_eq_mark_iff.mpr ⟨isLongest_before_digit .minus h rest, ?_⟩
    rintro ⟨_, _, hpoint, -⟩
    cases hpoint
  have htext := text_lexeme_of_mark hkind
  have happend := lexeme_append '-' (digit :: rest)
  rw [htext] at happend
  generalize lexeme '-' (digit :: rest) = read at hkind htext happend
  obtain ⟨kind, text, left⟩ := read
  obtain rfl : kind = .mark .minus := hkind
  obtain rfl : text = ['-'] := htext
  obtain rfl : left = digit :: rest := (List.cons.inj happend).2
  rfl

end Scan

namespace DigitRun

variable (digits : DigitRun)

/-- The digits as a text. -/
def text : String := String.ofList digits.chars

/-- The token that the digits are read as. -/
def token (start : Nat) : Token :=
  ⟨.number, digits.text, ⟨start, start + Source.byteLength digits.chars⟩, false⟩

/-- The end mark behind the digits. -/
def semicolon (start : Nat) : Token :=
  let stop := start + Source.byteLength digits.chars
  ⟨.mark .semicolon, ";", ⟨stop, stop + 1⟩, false⟩

variable {digits} (h : digits.chars ≠ [])

include h

/-- The tokens of digits and a semicolon. -/
theorem scanFrom_text (start : Nat) :
    Scan.scanFrom start (digits.chars ++ [';']) =
      ⟨[digits.token start, digits.semicolon start],
        start + Source.byteLength digits.chars + 1, false⟩ := by
  obtain ⟨chars, hdigit⟩ := digits
  obtain ⟨first, rest, rfl⟩ := List.exists_cons_of_ne_nil h
  have hfirst := hdigit first List.mem_cons_self
  exact Scan.scanFrom_before_semicolon (Scan.startsToken_of_first (.inl hfirst) _)
    (Scan.lexeme_digits hdigit) start

/-- The cursor at such a text. -/
theorem ofSource_text :
    Cursor.ofSource (digits.text ++ ";") =
      ⟨[digits.token 0, digits.semicolon 0], 0 + Source.byteLength digits.chars + 1, false, 0⟩ := by
  have hchars : (digits.text ++ ";").toList = digits.chars ++ [';'] := by
    rw [String.toList_append, text, String.toList_ofList]
    rfl
  rw [Cursor.ofSource, TokenStream.ofSource, hchars, scanFrom_text h]
  rfl

/-- The cursor at such a text with a minus. -/
theorem ofSource_negated :
    Cursor.ofSource ("-" ++ digits.text ++ ";") =
      ⟨[⟨.mark .minus, "-", ⟨0, 1⟩, false⟩, digits.token 1, digits.semicolon 1],
        1 + Source.byteLength digits.chars + 1, false, 0⟩ := by
  have hchars : ("-" ++ digits.text ++ ";").toList = '-' :: (digits.chars ++ [';']) := by
    simp only [String.toList_append, text, String.toList_ofList]
    rfl
  obtain ⟨first, rest, hfirst⟩ := List.exists_cons_of_ne_nil h
  have hminus : Scan.lexeme '-' (digits.chars ++ [';']) =
      ⟨.mark .minus, ['-'], digits.chars ++ [';']⟩ := by
    rw [hfirst]
    exact Scan.lexeme_minus (digits.isDigit first (hfirst ▸ List.mem_cons_self)) _
  have hrest : Scan.scanFrom (0 + Source.byteLength [] + Source.byteLength ['-'])
      (digits.chars ++ [';']) = _ := scanFrom_text h 1
  rw [Cursor.ofSource, TokenStream.ofSource, hchars, Scan.scanFrom_of_lexeme rfl hminus, hrest]
  rfl

end DigitRun

/-! ## Programs -/

open Lowering (opened value)

/-- The leaf of a number is lowered to what its text is read as. -/
theorem Lowering.value_number {token : Token} (h : token.kind = .number) :
    value (.atom token.leaf) opened =
      ((Literal.readNumber? token.text).elim (.error token.leaf.unimplementedLiteral)
        fun literal => .ok (.literal literal), opened) := by
  have hatom : Tree.atom token.leaf =
      .expression [.wrap .literal (.wrap .numericLiteral token.leaf)] := by
    rw [Token.leaf, h]
    rfl
  have hliteral (span around : Span) :
      (Tree.node .literal [.node .numericLiteral [token.leaf] span] around).literal =
        (Literal.readNumber? token.text).elim (.error token.leaf.unimplementedLiteral) .ok := by
    have hinner : Tree.children (.node .numericLiteral [token.leaf] span) = [token.leaf] := rfl
    rw [← Tree.numericLiteral_eq h hinner]
    rfl
  rw [hatom, Tree.expression_eq, Tree.wrap_eq, Tree.wrap_eq, value_constant rfl, hliteral]
  cases Literal.readNumber? token.text <;> rfl

/-- Digits in front of an end mark are read as one operand. -/
theorem DigitRun.reads_token (digits : DigitRun) (start endOffset previousEnd : Nat) :
    Reads .done (.expression .signed)
      ⟨[digits.token start, digits.semicolon start], endOffset, false, previousEnd⟩
      [.atom (digits.token start).leaf]
      ⟨[digits.semicolon start], endOffset, false, (digits.token start).span.stop⟩ :=
  .unsigned rfl (.noStep (.accesses (.subject (.atom (.intro rfl))) rfl) rfl)

namespace Program

variable {digits : DigitRun} (h : digits.chars ≠ [])

include h

/-- Digits are a program of one literal, or refused. -/
theorem ofSource_digits :
    Program.ofSource (digits.text ++ ";") = (Literal.readNumber? digits.text).elim
      (.error (.rejected (.unimplementedLiteral digits.text ⟨0, Source.byteLength digits.chars⟩)))
      fun literal => .ok ⟨[.literal literal]⟩ := by
  have hvalue : value (.atom (digits.token 0).leaf) opened = _ := Lowering.value_number rfl
  rw [Program.ofSource_of_reads (DigitRun.ofSource_text h) (.noPower (digits.reads_token 0 _ _) rfl)
    rfl rfl rfl Kind.noConfusion hvalue]
  have hstop : (digits.token 0).leaf.unimplementedLiteral =
      .unimplementedLiteral digits.text ⟨0, Source.byteLength digits.chars⟩ := by
    rw [← Nat.zero_add (Source.byteLength digits.chars)]
    rfl
  rw [hstop]
  change Except.mapError _ (Except.map _ (Option.elim (Literal.readNumber? digits.text) _ _)) = _
  cases Literal.readNumber? digits.text <;> rfl

/-- With a minus they are negated. -/
theorem ofSource_negated {literal : Literal}
    (hread : Literal.readNumber? digits.text = some literal) :
    Program.ofSource ("-" ++ digits.text ++ ";") = .ok ⟨[.unary .negate (.literal literal)]⟩ := by
  let minus : Token := ⟨.mark .minus, "-", ⟨0, 1⟩, false⟩
  have hoperand :
      value (.atom (digits.token 1).leaf) opened = (.ok (.literal literal), opened) := by
    rw [Lowering.value_number rfl]
    change (Option.elim (Literal.readNumber? digits.text) _ _, opened) = _
    rw [hread]
    rfl
  have hvalue : value (.expression [minus.leaf, .atom (digits.token 1).leaf]) opened =
      (.ok (.unary .negate (.literal literal)), opened) := by
    rw [Tree.expression_eq]
    exact Lowering.value_negation rfl hoperand _ _ _
  rw [Program.ofSource_of_reads (DigitRun.ofSource_negated h)
    (.noPower (.signed (.intro rfl) (digits.reads_token 1 _ _)) rfl) rfl rfl rfl (by decide) hvalue]
  rfl

end Program

/-! ## Values -/

/-- The two widths of integer literals have the same value. -/
theorem Value.ofLiteral_digits {count : Nat} (h : count < 2 ^ 63) :
    ∃ number : Int64, number.toInt = count ∧
      ofLiteral (if count < 2 ^ 31 then .int (.ofNat count) else .long (.ofNat count)) =
        .int number := by
  by_cases hnarrow : count < 2 ^ 31
  · refine ⟨(Int32.ofNat count).toInt64, ?_, by rw [if_pos hnarrow, ofLiteral]⟩
    rw [Int32.toInt_toInt64, Int32.toInt_ofNat_of_lt hnarrow]
  · exact ⟨.ofNat count, Int64.toInt_ofNat_of_lt h, by rw [if_neg hnarrow, ofLiteral]⟩

/-- A number that is not negative can be negated. -/
theorem Value.toInt_neg_of_nonneg {number : Int64} (h : 0 ≤ number.toInt) :
    (-number).toInt = -number.toInt := by
  have hhigh := number.toInt_lt
  rw [Int64.toInt_neg, Int.bmod_eq_of_le (by omega) (by omega)]

/-- Digits are read as the decimal that has all of them before its point. -/
theorem DigitRun.read?_text {digits : DigitRun} (h : digits.chars ≠ []) :
    Decimal.read? digits.text = some ⟨false, digits.value, 0⟩ := by
  have hwhole : digits.append (WrittenNumber.fractionDigits none) = digits := by
    obtain ⟨chars, hdigit⟩ := digits
    simp [append, WrittenNumber.fractionDigits]
  refine Decimal.read?_eq_some_iff.mpr ⟨.absent, ⟨digits, none, none, .inl h⟩, ?_, ?_⟩
  · rw [text, String.toList_ofList]
    exact (List.append_nil _).symm
  · rw [WrittenNumber.decimal, hwhole]
    rfl

/-- An integer has a finite double below the middle between the greatest double and `2 ^ 1024`. -/
theorem Decimal.isFinite_integer_iff (count : Nat) :
    (Decoded.ofFloat (Decimal.toFloat ⟨false, count, 0⟩)).IsFinite ↔
      count < (2 ^ 54 - 1) * 2 ^ 970 := by
  have hlimit : overflowLimit .binary64 = (2 ^ 54 - 1) * 2 ^ 970 := by decide +kernel
  rw [isFinite_toFloat_iff, ← hlimit, Below]
  simp

namespace Literal

variable {text : String} {literal : Literal}

/-- The two widths in floating point have no integers as values. -/
theorem ofLiteral_eq_float (h : readFloat? text = some literal ∨ readDouble? text = some literal) :
    ∃ result, Value.ofLiteral literal = .float result := by
  rcases h with hnarrow | hwide
  · obtain ⟨decimal, -, hwidth⟩ := Option.bind_eq_some_iff.mp hnarrow
    obtain ⟨-, hliteral⟩ := Option.ite_none_right_eq_some.mp hwidth
    cases hliteral
    exact ⟨_, rfl⟩
  · obtain ⟨decimal, -, hwidth⟩ := Option.bind_eq_some_iff.mp hwide
    obtain ⟨-, hliteral⟩ := Option.ite_none_right_eq_some.mp hwidth
    cases hliteral
    exact ⟨_, rfl⟩

/-- An integer that does not fit into 64 bits is not read as one. -/
theorem ofLiteral_of_wide {value : Nat} (hinteger : Decimal.readInteger? text = some (value : Int))
    (hwide : 2 ^ 63 ≤ value) (hread : readNumber? text = some literal) :
    ∃ result, Value.ofLiteral literal = .float result := by
  rw [readNumber?, readInt?_of_readInteger? hinteger, readLong?_of_readInteger? hinteger,
    if_neg (by omega), if_neg (by omega)] at hread
  cases hfloat : readFloat? text with
  | some narrow =>
    rw [hfloat] at hread
    exact ofLiteral_eq_float (.inl (hfloat.trans hread))
  | none =>
    rw [hfloat] at hread
    exact ofLiteral_eq_float (.inr hread)

end Literal

/-- What digits in front of an end mark evaluate to, in every session. Below `2 ^ 63` it is the
integer that they denote, and behind a minus sign the negated one. From there on it is a number in
floating point, or the text is rejected as an unimplemented literal where the double of that number
is not finite, which is from the middle between the greatest double and `2 ^ 1024` on. -/
theorem Session.evaluate_digits (session : Session) (digits : DigitRun) (h : digits.chars ≠ []) :
    (digits.value < 2 ^ 63 →
      (∃ number : Int64, number.toInt = digits.value ∧
        session.evaluate (digits.text ++ ";") = (.ok (.int number), session.cleared)) ∧
      ∃ number : Int64, number.toInt = -digits.value ∧
        session.evaluate ("-" ++ digits.text ++ ";") = (.ok (.int number), session.cleared)) ∧
    (2 ^ 63 ≤ digits.value → digits.value < (2 ^ 54 - 1) * 2 ^ 970 →
      ∃ number, session.evaluate (digits.text ++ ";") = (.ok (.float number), session.cleared)) ∧
    ((2 ^ 54 - 1) * 2 ^ 970 ≤ digits.value →
      session.evaluate (digits.text ++ ";") =
        (.error (.rejected (.unimplementedLiteral digits.text
          ⟨0, Source.byteLength digits.chars⟩)), session)) ∧
    ((Decoded.ofFloat (Decimal.toFloat ⟨false, digits.value, 0⟩)).IsFinite ↔
      digits.value < (2 ^ 54 - 1) * 2 ^ 970) := by
  have hchars : digits.text.toList = digits.chars := String.toList_ofList
  have hprogram := Program.ofSource_digits h
  have hsome := (Literal.isSome_readNumber?_iff (DigitRun.read?_text h)).trans
    (Decimal.isFinite_integer_iff digits.value)
  refine ⟨fun hvalue => ?_, fun hwide hfinite => ?_, fun hinfinite => ?_,
    Decimal.isFinite_integer_iff digits.value⟩
  · have hread := Literal.readNumber?_of_digits h hchars hvalue
    obtain ⟨number, hnumber, hliteral⟩ := Value.ofLiteral_digits hvalue
    rw [hread] at hprogram
    constructor
    · exact ⟨number, hnumber, hliteral ▸ session.evaluate_literal hprogram⟩
    · refine ⟨-number, ?_, session.evaluate_negation (Program.ofSource_negated h hread) hliteral⟩
      rw [Value.toInt_neg_of_nonneg (by omega), hnumber]
  · obtain ⟨literal, hread⟩ := Option.isSome_iff_exists.mp (hsome.mpr hfinite)
    have hinteger : Decimal.readInteger? digits.text = some (digits.value : Int) :=
      Decimal.readInteger?_eq_some_iff.mpr ⟨.absent, digits, h, hchars, rfl⟩
    obtain ⟨number, hnumber⟩ := Literal.ofLiteral_of_wide hinteger (by omega) hread
    rw [hread] at hprogram
    exact ⟨number, hnumber ▸ session.evaluate_literal hprogram⟩
  · have hnone : Literal.readNumber? digits.text = none := by
      rw [← Option.not_isSome_iff_eq_none, hsome]
      exact Nat.not_lt.mpr hinfinite
    rw [hnone] at hprogram
    rw [evaluate, hprogram]
    rfl

/-- The greatest integer behind leading zeros, the one after it, and a number of too many digits. -/
theorem Session.evaluate_digits_limits :
    let session := Session.new
    (∃ number : Int64, number.toInt = 9223372036854775807 ∧
      session.evaluate "009223372036854775807;" = (.ok (.int number), session.cleared)) ∧
    (∃ number : Int64, number.toInt = -9223372036854775807 ∧
      session.evaluate "-009223372036854775807;" = (.ok (.int number), session.cleared)) ∧
    (∃ number,
      session.evaluate "9223372036854775808;" = (.ok (.float number), session.cleared)) ∧
    ∃ text span, session.evaluate (String.ofList (List.replicate 309 '9') ++ ";") =
      (.error (.rejected (.unimplementedLiteral text span)), session) := by
  intro session
  let greatest := DigitRun.ofFront "009223372036854775807".toList
  let next := DigitRun.ofFront "9223372036854775808".toList
  let nines : DigitRun := ⟨List.replicate 309 '9', fun c hc => List.eq_of_mem_replicate hc ▸ rfl⟩
  have hgreatest : greatest.value = 9223372036854775807 := by
    rw [← DigitRun.ofDigits_chars]
    decide
  have hnext : next.value = 9223372036854775808 := by
    rw [← DigitRun.ofDigits_chars]
    decide
  have hnines : (2 ^ 54 - 1) * 2 ^ 970 ≤ nines.value := by
    rw [← DigitRun.ofDigits_chars]
    decide +kernel
  obtain ⟨hint, -⟩ := session.evaluate_digits greatest (by decide)
  obtain ⟨-, hfloat, -⟩ := session.evaluate_digits next (by decide)
  obtain ⟨-, -, hrejected, -⟩ := session.evaluate_digits nines (by decide)
  rw [hgreatest] at hint
  obtain ⟨hplain, hnegated⟩ := hint (by decide)
  rw [hnext] at hfloat
  exact ⟨hplain, hnegated, hfloat (by decide) (by decide +kernel), _, _, hrejected hnines⟩

end TreeScript
