import Mathlib.Data.List.TakeWhile
import TreeScript.Proofs.Token.Lookahead

/-!
# Spellings

A text that is read as one token spells the token's kind. The main statements: every token of a
source text spells its kind, unless it is an invalid one, and texts that spell kinds are read back
one by one when single spaces or line feeds separate them, with the line breaks between them. Both
rest on the same fact about each reader: what it has taken it takes again when nothing follows, or
a space, or a line feed.
-/

namespace TreeScript

variable {newline : Bool}

/-- The text is read as one token of the kind and nothing else. -/
def Spells (text : String) (kind : Kind) : Prop :=
  (TokenStream.ofSource text).tokens.map (fun token => (token.kind, token.text)) = [(kind, text)]

/-- A text spells no more than one kind. -/
theorem Spells.unique {text : String} {kind other : Kind} (h : Spells text kind)
    (hother : Spells text other) : kind = other := by
  have htokens := h.symm.trans hother
  simp only [List.cons.injEq, Prod.mk.injEq] at htokens
  exact htokens.1.1

/-- What can be told of a token without its place in the text. The end of the text has no kind. -/
structure TokenView where
  kind? : Option Kind
  text : String
  newlineBefore : Bool
deriving DecidableEq, Repr

/-- A token without its place. -/
def Token.view (token : Token) : TokenView := ⟨some token.kind, token.text, token.newlineBefore⟩

/-- The tokens of a stream and its end, without their places. -/
def TokenStream.views (stream : TokenStream) : List TokenView :=
  stream.tokens.map Token.view ++ [⟨none, "", stream.newlineBeforeEnd⟩]

/-- Views are those of the tokens and of the end. -/
theorem TokenStream.views_eq_iff {stream : TokenStream} {views : List TokenView} :
    stream.views = views ++ [⟨none, "", newline⟩] ↔
      stream.tokens.map Token.view = views ∧ stream.newlineBeforeEnd = newline := by
  unfold TokenStream.views
  rw [← List.concat_eq_append, ← List.concat_eq_append, List.concat_inj]
  simp

namespace Scan

open Text (isNameStart isNamePart)

variable {test glues : Char → Bool} {chars run after : List Char} {c first : Char}
  {tokens : List Token} {texts : List String}

/-! ## Runs of characters -/

/-- The first character, if there is one, fails a test. -/
def Stops (test : Char → Bool) (chars : List Char) : Prop :=
  ∀ c, chars.head? = some c → test c = false

/-- Nothing, or a space or a line feed first. -/
def Apart (chars : List Char) : Prop := ∀ c, chars.head? = some c → c = ' ' ∨ c = '\n'

/-- A separator stops every run without blanks. -/
theorem Apart.stops (h : Apart chars) (htest : test ' ' = false ∧ test '\n' = false) :
    Stops test chars := by
  intro c hc
  rcases h c hc with rfl | rfl
  · exact htest.1
  · exact htest.2

/-- A run stops at a character that fails the test. -/
theorem stops_cons (h : test c = false) (chars : List Char) : Stops test (c :: chars) := by
  intro d hd
  cases hd
  exact h

/-- In front of what follows it, a run that is not empty settles how the whole begins. -/
theorem Stops.append (hrun : Stops test run) (hafter : Stops test after) :
    Stops test (run ++ after) := by
  cases run with
  | nil => exact hafter
  | cons c run => exact hrun

/-- What stops a text stops its beginning. -/
theorem Stops.of_append (h : Stops test (run ++ after)) : Stops test run := by
  cases run with
  | nil => exact fun _ hc => nomatch hc
  | cons c run => exact h

/-- A run stops at the end or at a failing character. -/
theorem stops_iff : Stops test chars ↔ (chars.head?.map test).getD false = false := by
  cases chars with
  | nil => exact ⟨fun _ => rfl, fun _ _ hc => nomatch hc⟩
  | cons c chars => exact ⟨fun h => h c rfl, fun h => stops_cons h chars⟩

/-- A run is taken up to where it stops. -/
theorem takeWhile_append_of_stops (hrun : ∀ c ∈ run, test c = true) (hafter : Stops test after) :
    (run ++ after).takeWhile test = run := by
  rw [List.takeWhile_append_of_pos hrun]
  cases after with
  | nil => simp
  | cons c after => simp [hafter c rfl]

/-- What is left begins where the run stops. -/
theorem dropWhile_append_of_stops (hrun : ∀ c ∈ run, test c = true) (hafter : Stops test after) :
    (run ++ after).dropWhile test = after := by
  rw [List.dropWhile_append_of_pos hrun]
  cases after with
  | nil => rfl
  | cons c after => simp [hafter c rfl]

/-- Where a run ends is plain from what follows it. -/
theorem append_injective_of_stops {run run' after after' : List Char}
    (hrun : ∀ c ∈ run, test c = true) (hrun' : ∀ c ∈ run', test c = true)
    (hafter : Stops test after) (hafter' : Stops test after') (h : run ++ after = run' ++ after') :
    run = run' ∧ after = after' := by
  have htake := congrArg (List.takeWhile test) h
  have hdrop := congrArg (List.dropWhile test) h
  rw [takeWhile_append_of_stops hrun hafter, takeWhile_append_of_stops hrun' hafter'] at htake
  rw [dropWhile_append_of_stops hrun hafter, dropWhile_append_of_stops hrun' hafter'] at hdrop
  exact ⟨htake, hdrop⟩

/-- The longest run that passes a test, taken again. -/
theorem takeWhile_again (chars : List Char) (hafter : Stops test after) :
    (chars.takeWhile test ++ after).takeWhile test = chars.takeWhile test :=
  takeWhile_append_of_stops (fun _ => List.mem_takeWhile_imp) hafter

/-- A run that is read again ends at the same place. -/
theorem dropWhile_again (chars : List Char) (hafter : Stops test after) :
    (chars.takeWhile test ++ after).dropWhile test = after :=
  dropWhile_append_of_stops (fun _ => List.mem_takeWhile_imp) hafter

/-! ## Readers take again what they have taken -/

/-- A reader that works after some characters have been taken, and that takes the same token again
from the token's own characters when nothing follows them, or a space or a line feed. -/
def TakesAgain (lead : List Char) (read : List Char → Lexeme) : Prop :=
  ∀ chars tail after, (read chars).text = lead ++ tail → (read chars).kind ≠ .invalid →
    Apart after → read (tail ++ after) = ⟨(read chars).kind, lead ++ tail, after⟩

/-- A quoted text that is read again is the same. -/
theorem quotedTail_again (quote : Char) (chars after : List Char)
    (h : (quotedTail quote chars).kind ≠ .invalid) :
    quotedTail quote ((quotedTail quote chars).text ++ after) =
      ⟨(quotedTail quote chars).kind, (quotedTail quote chars).text, after⟩ := by
  fun_induction quotedTail quote chars with
  | case1 => exact absurd rfl h
  | case2 c rest hc => exact absurd rfl h
  | case3 c rest hc hquote =>
    rw [quotedTail.eq_def]
    simp [hc, hquote]
  | case4 c hc hquote hslash => exact absurd rfl h
  | case5 c hc hquote hslash d rest ih =>
    have ih := ih h
    rw [quotedTail.eq_def]
    simp [hc, hquote, hslash, ih, Lexeme.prepend]
  | case6 c rest hc hquote hslash ih =>
    have ih := ih h
    rw [quotedTail.eq_def]
    simp [hc, hquote, hslash, ih, Lexeme.prepend]

/-- Names and words are read again. -/
theorem takesAgain_nameOrWord (first : Char) : TakesAgain [first] (nameOrWord first) := by
  intro chars tail after htext hkind hafter
  have hpart : isNamePart ' ' = false ∧ isNamePart '\n' = false :=
    ⟨Text.isNamePart_of_gap (by decide), Text.isNamePart_of_gap (by decide)⟩
  simp only [nameOrWord, List.cons_append, List.nil_append, List.cons.injEq, true_and] at htext
  subst htext
  simp only [nameOrWord, takeWhile_again chars (hafter.stops hpart),
    dropWhile_again chars (hafter.stops hpart), List.cons_append, List.nil_append]

/-- A token that nothing is glued to is valid. -/
theorem unlessGlued_eq {rest : List Char} (h : Stops glues rest) (kind : Kind) (text : List Char) :
    unlessGlued glues kind text rest = ⟨kind, text, rest⟩ := by
  unfold unlessGlued
  cases rest with
  | nil => rfl
  | cons c rest => simp [h c rfl]

/-- A token that is not invalid does not run into a name. -/
theorem unlessGlued_of_valid {kind : Kind} {text rest : List Char}
    (h : (unlessGlued glues kind text rest).kind ≠ .invalid) :
    unlessGlued glues kind text rest = ⟨kind, text, rest⟩ := by
  unfold unlessGlued at h ⊢
  split at h
  · exact absurd rfl h
  · rename_i hglue
    rw [if_neg hglue]

/-- Numbers with a radix are read again. -/
theorem takesAgain_radixNumber (radix : Radix) (lead : List Char) :
    TakesAgain lead (radixNumber radix lead) := by
  intro chars tail after htext hkind hafter
  have hdigit : isDigitOf radix ' ' = false ∧ isDigitOf radix '\n' = false := by
    cases radix <;> decide
  have hpart : isNamePart ' ' = false ∧ isNamePart '\n' = false :=
    ⟨Text.isNamePart_of_gap (by decide), Text.isNamePart_of_gap (by decide)⟩
  unfold radixNumber at htext hkind
  dsimp only at htext hkind
  split at hkind
  · exact absurd rfl hkind
  rename_i hdigits
  rw [if_neg hdigits, unlessGlued_of_valid hkind] at htext
  have htail : chars.takeWhile (isDigitOf radix) = tail := List.append_cancel_left htext
  have hvalid : radixNumber radix lead chars =
      ⟨.radixNumber radix, lead ++ tail, chars.dropWhile (isDigitOf radix)⟩ := by
    unfold radixNumber
    dsimp only
    rw [if_neg hdigits, unlessGlued_of_valid hkind, htail]
  have hagain : (tail ++ after).takeWhile (isDigitOf radix) = tail := by
    rw [← htail]
    exact takeWhile_again chars (hafter.stops hdigit)
  have hafterDigits : (tail ++ after).dropWhile (isDigitOf radix) = after := by
    rw [← htail]
    exact dropWhile_again chars (hafter.stops hdigit)
  rw [hvalid]
  unfold radixNumber
  dsimp only
  rw [hagain, hafterDigits, if_neg (htail ▸ hdigits), unlessGlued_eq (hafter.stops hpart)]

/-- The characters that begin an exponent. -/
def isExponentMark (c : Char) : Bool := c == 'e' || c == 'E'

/-- The characters that may stand before the digits of an exponent. -/
def isExponentSign (c : Char) : Bool := c == '+' || c == '-'

/-- Fractions are read again. -/
theorem splitFraction_again (chars : List Char) (hdigit : Stops Char.isDigit after)
    (hpoint : Stops (· == '.') after) :
    splitFraction ((splitFraction chars).1 ++ after) = ((splitFraction chars).1, after) := by
  fun_cases splitFraction chars with
  | case1 rest =>
    simp only [List.cons_append, splitFraction, takeWhile_again rest hdigit,
      dropWhile_again rest hdigit]
  | case2 chars hchars =>
    cases after with
    | nil => rfl
    | cons c after =>
      have hc : c ≠ '.' := by simpa using hpoint c rfl
      simp only [List.nil_append]
      rw [splitFraction]
      intro rest hrest
      cases hrest
      exact hc rfl

/-- Signs are read again. -/
theorem splitSign_again (chars : List Char) (h : Stops isExponentSign after) :
    splitSign ((splitSign chars).1 ++ after) = ((splitSign chars).1, after) := by
  have hnone : splitSign after = ([], after) := by
    cases after with
    | nil => rfl
    | cons c after =>
      have hc := h c rfl
      unfold isExponentSign at hc
      simp [splitSign, hc]
  fun_cases splitSign chars with
  | case1 c rest hc => simp [splitSign, hc]
  | case2 c rest hc => exact hnone
  | case3 => exact hnone

/-- No digit is a sign. -/
theorem isExponentSign_of_isDigit (h : c.isDigit = true) : isExponentSign c = false := by
  unfold isExponentSign
  rw [Bool.or_eq_false_iff, beq_eq_false_iff_ne, beq_eq_false_iff_ne]
  constructor
  · rintro rfl
    cases h
  · rintro rfl
    cases h

/-- An exponent is a mark, a sign and digits, or none. -/
theorem splitExponent_cons (c : Char) (rest : List Char) :
    splitExponent (c :: rest) =
      let digits := (splitSign rest).2.takeWhile Char.isDigit
      if isExponentMark c && !digits.isEmpty then
        (c :: (splitSign rest).1 ++ digits, (splitSign rest).2.dropWhile Char.isDigit)
      else ([], c :: rest) := rfl

/-- Without an exponent mark there is no exponent. -/
theorem splitExponent_of_stops (h : Stops isExponentMark chars) :
    splitExponent chars = ([], chars) := by
  cases chars with
  | nil => rfl
  | cons c rest => simp [splitExponent_cons, h c rfl]

/-- Exponents are read again. -/
theorem splitExponent_again (chars : List Char) (hdigit : Stops Char.isDigit after)
    (hmark : Stops isExponentMark after) :
    splitExponent ((splitExponent chars).1 ++ after) = ((splitExponent chars).1, after) := by
  cases chars with
  | nil => exact splitExponent_of_stops hmark
  | cons c rest =>
    by_cases h : isExponentMark c && !((splitSign rest).2.takeWhile Char.isDigit).isEmpty
    · -- The digits are not empty, so what follows the sign does not begin with another sign.
      have hsign : Stops isExponentSign ((splitSign rest).2.takeWhile Char.isDigit ++ after) := by
        cases hrun : (splitSign rest).2.takeWhile Char.isDigit with
        | nil => simp [hrun] at h
        | cons d run =>
          have hd : d ∈ (splitSign rest).2.takeWhile Char.isDigit := by simp [hrun]
          exact stops_cons (isExponentSign_of_isDigit (List.mem_takeWhile_imp hd)) _
      simp only [splitExponent_cons c rest, if_pos h, List.cons_append, List.append_assoc]
      rw [splitExponent_cons, splitSign_again rest hsign]
      simp only [takeWhile_again _ hdigit, dropWhile_again _ hdigit, if_pos h]
      simp
    · simp only [splitExponent_cons c rest, if_neg h, List.nil_append]
      exact splitExponent_of_stops hmark

/-- An exponent begins with its mark. -/
theorem stops_splitExponent (he : test 'e' = false) (hE : test 'E' = false) (chars : List Char) :
    Stops test (splitExponent chars).1 := by
  cases chars with
  | nil => exact fun _ h => nomatch h
  | cons c rest =>
    rw [splitExponent_cons]
    dsimp only
    split
    · rename_i h
      simp only [isExponentMark, Bool.and_eq_true, Bool.or_eq_true, beq_iff_eq] at h
      rcases h.1 with rfl | rfl
      · exact stops_cons he _
      · exact stops_cons hE _
    · exact fun _ h => nomatch h

/-- A fraction begins with its point. -/
theorem stops_splitFraction (h : test '.' = false) (chars : List Char) :
    Stops test (splitFraction chars).1 := by
  fun_cases splitFraction chars with
  | case1 rest => exact stops_cons h _
  | case2 =>
    intro c hc
    cases hc

/-- Exponents are read again before a separator. -/
theorem splitExponent_apart (chars : List Char) (hafter : Apart after) :
    splitExponent ((splitExponent chars).1 ++ after) = ((splitExponent chars).1, after) :=
  splitExponent_again chars (hafter.stops (by decide)) (hafter.stops (by decide))

/-- The digits, the fraction and the exponent of a number after its first digit. -/
def splitNumber (chars : List Char) : List Char × List Char :=
  let fraction := splitFraction (chars.dropWhile Char.isDigit)
  let exponent := splitExponent fraction.2
  (chars.takeWhile Char.isDigit ++ (fraction.1 ++ exponent.1), exponent.2)

/-- A decimal number is read up to where it ends. -/
theorem decimalNumber_eq (first : Char) (chars : List Char) :
    decimalNumber first chars =
      unlessGlued isNameStart .number (first :: (splitNumber chars).1) (splitNumber chars).2 := by
  simp [decimalNumber, splitNumber]

/-- Numbers are read again before a separator. -/
theorem splitNumber_again (chars : List Char) (hafter : Apart after) :
    splitNumber ((splitNumber chars).1 ++ after) = ((splitNumber chars).1, after) := by
  let digits := chars.takeWhile Char.isDigit
  let fraction := splitFraction (chars.dropWhile Char.isDigit)
  let exponent := splitExponent fraction.2
  have hpoint : Stops (· == '.') (exponent.1 ++ after) :=
    (stops_splitExponent (by decide) (by decide) _).append (hafter.stops (by decide))
  have hexponent : Stops Char.isDigit (exponent.1 ++ after) :=
    (stops_splitExponent (by decide) (by decide) _).append (hafter.stops (by decide))
  have hfraction : Stops Char.isDigit (fraction.1 ++ (exponent.1 ++ after)) :=
    (stops_splitFraction (by decide) _).append hexponent
  have htext : (splitNumber chars).1 ++ after =
      digits ++ (fraction.1 ++ (exponent.1 ++ after)) := by
    simp [splitNumber, digits, fraction, exponent]
  have hdigits : (digits ++ (fraction.1 ++ (exponent.1 ++ after))).takeWhile Char.isDigit =
      digits := takeWhile_again chars hfraction
  have hrest : (digits ++ (fraction.1 ++ (exponent.1 ++ after))).dropWhile Char.isDigit =
      fraction.1 ++ (exponent.1 ++ after) := dropWhile_again chars hfraction
  have hsplit : splitFraction (fraction.1 ++ (exponent.1 ++ after)) =
      (fraction.1, exponent.1 ++ after) := splitFraction_again _ hexponent hpoint
  have hlast : splitExponent (exponent.1 ++ after) = (exponent.1, after) :=
    splitExponent_apart fraction.2 hafter
  rw [htext]
  unfold splitNumber
  simp only [hdigits, hrest, hsplit, hlast, digits, fraction, exponent]

/-- Decimal numbers are read again. -/
theorem takesAgain_decimalNumber (first : Char) : TakesAgain [first] (decimalNumber first) := by
  intro chars tail after htext hkind hafter
  rw [decimalNumber_eq] at htext hkind ⊢
  rw [unlessGlued_of_valid hkind] at htext
  obtain rfl : (splitNumber chars).1 = tail := (List.cons.inj htext).2
  rw [decimalNumber_eq first chars, unlessGlued_of_valid hkind, splitNumber_again chars hafter,
    unlessGlued_eq (hafter.stops (by decide))]
  rfl

/-- Numbers that begin with a point are read again. -/
theorem takesAgain_pointNumber :
    TakesAgain ['.'] fun chars => (pointNumber chars).prepend ['.'] := by
  intro chars tail after htext hkind hafter
  have hexponent : Stops Char.isDigit
      ((splitExponent (chars.dropWhile Char.isDigit)).1 ++ after) :=
    (stops_splitExponent (by decide) (by decide) _).append (hafter.stops (by decide))
  obtain rfl : chars.takeWhile Char.isDigit ++ (splitExponent (chars.dropWhile Char.isDigit)).1 =
      tail := (List.cons.inj htext).2
  simp only [pointNumber, Lexeme.prepend, List.append_assoc, takeWhile_again chars hexponent,
    dropWhile_again chars hexponent, splitExponent_apart _ hafter, List.cons_append,
    List.nil_append]

/-- Whether a character after the first digit of a number announces a base. -/
def announcesRadix (first c : Char) : Bool := first == '0' && (radixOfLetter? c).isSome

/-- A number is decimal unless a radix is announced. -/
theorem number_of_stops (h : Stops (announcesRadix first) chars) :
    number first chars = decimalNumber first chars := by
  cases chars with
  | nil => rfl
  | cons c rest =>
    have hc := h c rfl
    simp only [announcesRadix, Bool.and_eq_false_iff] at hc
    unfold number
    rcases hc with hfirst | hletter
    · simp [hfirst]
    · have hnone : radixOfLetter? c = none := by simpa using hletter
      simp [hnone]

/-- Where a base is announced, there is one. -/
theorem exists_radix_of_not_stops (h : ¬ Stops (announcesRadix first) chars) :
    ∃ c rest, chars = c :: rest ∧ first = '0' ∧ ∃ radix, radixOfLetter? c = some radix := by
  cases chars with
  | nil => exact absurd (fun _ hc => nomatch hc) h
  | cons c rest =>
    have hc : announcesRadix first c = true := by
      by_contra hc
      exact h (stops_cons (Bool.not_eq_true _ ▸ hc) rest)
    simp only [announcesRadix, Bool.and_eq_true, beq_iff_eq, Option.isSome_iff_exists] at hc
    exact ⟨c, rest, rfl, hc⟩

/-- A number has the radix that is announced. -/
theorem number_of_announces {radix : Radix} (hfirst : first = '0')
    (hc : radixOfLetter? c = some radix) (rest : List Char) :
    number first (c :: rest) = radixNumber radix [first, c] rest := by
  subst hfirst
  simp [number, hc]

/-- A number with a radix begins with what announces it. -/
theorem radixNumber_text (radix : Radix) (lead chars : List Char) :
    ∃ tail, (radixNumber radix lead chars).text = lead ++ tail := by
  unfold radixNumber unlessGlued
  dsimp only
  split
  · exact ⟨_, rfl⟩
  · split
    · exact ⟨_, List.append_assoc _ _ _⟩
    · exact ⟨_, rfl⟩

/-- All numbers are read again. -/
theorem takesAgain_number (first : Char) : TakesAgain [first] (number first) := by
  intro chars tail after htext hkind hafter
  by_cases hstops : Stops (announcesRadix first) chars
  · rw [number_of_stops hstops] at htext hkind ⊢
    have hchars : tail ++ (decimalNumber first chars).rest = chars := by
      have happend := decimalNumber_append first chars
      rw [htext] at happend
      exact (List.cons.inj happend).2
    have hagain : Stops (announcesRadix first) (tail ++ after) := by
      rw [← hchars] at hstops
      refine hstops.of_append.append (hafter.stops ?_)
      simp [announcesRadix, radixOfLetter?]
    rw [number_of_stops hagain]
    exact takesAgain_decimalNumber first chars tail after htext hkind hafter
  · obtain ⟨c, rest, rfl, hfirst, radix, hc⟩ := exists_radix_of_not_stops hstops
    rw [number_of_announces hfirst hc] at htext hkind ⊢
    obtain ⟨digits, hdigits⟩ := radixNumber_text radix [first, c] rest
    obtain rfl : c :: digits = tail := (List.cons.inj (hdigits.symm.trans htext)).2
    rw [List.cons_append, number_of_announces hfirst hc]
    exact takesAgain_radixNumber radix [first, c] rest digits after hdigits hkind hafter

/-- No mark has a separator in it. -/
theorem not_mem_spelling (mark : Mark) :
    ' ' ∉ mark.spelling.toList ∧ '\n' ∉ mark.spelling.toList := by
  cases mark <;> decide

/-- What has no space and no line feed in it and begins a run that is apart from what follows it
begins the run. -/
theorem isPrefix_of_append_apart (hchars : ' ' ∉ chars ∧ '\n' ∉ chars) (hafter : Apart after)
    (h : chars <+: run ++ after) :
    chars <+: run := by
  rcases List.prefix_or_prefix_of_prefix h (List.prefix_append run after) with hrun | ⟨more, rfl⟩
  · exact hrun
  · have hmore : more <+: after := (List.prefix_append_right_inj run).mp h
    cases more with
    | nil => simp
    | cons c more =>
      obtain ⟨rest, rfl⟩ := hmore
      have hc : c ∈ run ++ c :: more := List.mem_append_right run List.mem_cons_self
      rcases hafter c rfl with rfl | rfl
      · exact absurd hc hchars.1
      · exact absurd hc hchars.2

/-- Marks are read again. -/
theorem longestAt?_again {mark : Mark} (h : Mark.longestAt? chars = some mark)
    (hafter : Apart after) :
    Mark.longestAt? (mark.spelling.toList ++ after) = some mark := by
  unfold Mark.longestAt? at h ⊢
  rw [List.find?_eq_some_iff_append] at h ⊢
  obtain ⟨hmark, before, later, hall, hbefore⟩ := h
  refine ⟨by simp, before, later, hall, ?_⟩
  intro other hother
  have hnot := hbefore other hother
  simp only [Bool.not_eq_true', Bool.eq_false_iff, ne_eq,
    List.isPrefixOf_iff_prefix] at hnot hmark ⊢
  intro hlonger
  exact hnot ((isPrefix_of_append_apart (not_mem_spelling other) hafter hlonger).trans hmark)

/-- Marks and invalid characters are read again. -/
theorem takesAgain_markOrInvalid (first : Char) : TakesAgain [first] (markOrInvalid first) := by
  intro chars tail after htext hkind hafter
  cases hmark : Mark.longestAt? (first :: chars) with
  | none => simp [markOrInvalid, hmark] at hkind
  | some mark =>
    have hprefix : mark.spelling.toList <+: first :: chars := by
      have hfound := List.find?_some hmark
      exact List.isPrefixOf_iff_prefix.mp hfound
    have hspelling : (first :: chars).take mark.spelling.toList.length = mark.spelling.toList :=
      (List.prefix_iff_eq_take.mp hprefix).symm
    simp only [markOrInvalid, hmark, hspelling] at htext ⊢
    have hagain := longestAt?_again hmark hafter
    rw [htext] at hagain
    simp only [List.cons_append, List.nil_append] at hagain htext
    simp [hagain, htext]

/-- All tokens are read again. -/
theorem takesAgain_lexeme (first : Char) : TakesAgain [first] (lexeme first) := by
  intro chars tail after htext hkind hafter
  have happend := lexeme_append first chars
  rw [htext] at happend
  have hchars : tail ++ (lexeme first chars).rest = chars := (List.cons.inj happend).2
  simp only [lexeme_eq] at htext hkind ⊢
  by_cases hquote : first == '"' || first == '\''
  · simp only [if_pos hquote] at htext hkind ⊢
    obtain rfl : (quotedTail first chars).text = tail := (List.cons.inj htext).2
    rw [quotedTail_again first chars after hkind]
    rfl
  simp only [if_neg hquote] at htext hkind ⊢
  by_cases hdigit : first.isDigit
  · simp only [if_pos hdigit] at htext hkind ⊢
    exact takesAgain_number first chars tail after htext hkind hafter
  simp only [if_neg hdigit] at htext hkind ⊢
  by_cases hname : isNameStart first
  · simp only [if_pos hname] at htext hkind ⊢
    exact takesAgain_nameOrWord first chars tail after htext hkind hafter
  simp only [if_neg hname] at htext hkind ⊢
  by_cases hpoint : first == '.' && (chars.head?.map Char.isDigit).getD false
  · simp only [if_pos hpoint] at htext hkind ⊢
    obtain ⟨d, rest, rfl, rfl, hd⟩ : ∃ d rest, chars = d :: rest ∧ first = '.' ∧ d.isDigit := by
      cases chars with
      | nil => simp at hpoint
      | cons d rest => exact ⟨d, rest, rfl, by simpa using hpoint⟩
    have hagain := takesAgain_pointNumber (d :: rest) tail after htext hkind hafter
    simp only [pointNumber, Lexeme.prepend, List.takeWhile_cons, hd, if_true, List.cons_append,
      List.nil_append, List.cons.injEq, true_and] at htext
    rw [if_pos (by simp [← htext, hd])]
    exact hagain
  · have hagain : ¬(first == '.' && ((tail ++ after).head?.map Char.isDigit).getD false) := by
      simp only [Bool.and_eq_true, not_and, Bool.not_eq_true] at hpoint ⊢
      intro hfirst
      have hstops := stops_iff.mpr (hpoint hfirst)
      rw [← hchars] at hstops
      exact stops_iff.mp (hstops.of_append.append (hafter.stops (by decide)))
    simp only [if_neg hpoint] at htext hkind
    simp only [if_neg hpoint, if_neg hagain]
    exact takesAgain_markOrInvalid first chars tail after htext hkind hafter

/-! ## Gaps -/

/-- The characters begin with a token and not with a gap. -/
def StartsToken (chars : List Char) : Prop := skipGap .between chars = ⟨[], false, chars⟩

/-- The characters that make a comment of a slash before them. -/
def isCommentMark (c : Char) : Bool := c == '/' || c == '*'

/-- A character that does not begin a comment is a gap only if it is a blank or a line break. -/
theorem skipGap_cons (h : first = '/' → Stops isCommentMark chars) :
    skipGap .between (first :: chars) =
      if isBlank first then (skipGap .between chars).prepend [first] false
      else if isLineBreak first then (skipGap .between chars).prepend [first] true
      else ⟨[], false, first :: chars⟩ := by
  rw [skipGap]
  · rintro rest rfl rfl
    exact absurd (h rfl '/' rfl) (by decide)
  · rintro rest rfl rfl
    exact absurd (h rfl '*' rfl) (by decide)

/-- A token begins where no gap does. -/
theorem startsToken_cons_iff (first : Char) (chars : List Char) :
    StartsToken (first :: chars) ↔ isBlank first = false ∧ isLineBreak first = false ∧
      (first = '/' → Stops isCommentMark chars) := by
  constructor
  · intro h
    have hcomment : first = '/' → Stops isCommentMark chars := by
      rintro rfl c hc
      obtain ⟨rest, rfl⟩ : ∃ rest, chars = c :: rest := by
        cases chars with
        | nil => cases hc
        | cons d rest => cases hc; exact ⟨rest, rfl⟩
      unfold isCommentMark
      rw [Bool.or_eq_false_iff, beq_eq_false_iff_ne, beq_eq_false_iff_ne]
      constructor
      · rintro rfl
        have := congrArg Gap.skipped h
        simp [skipGap, Gap.prepend] at this
      · rintro rfl
        have := congrArg Gap.skipped h
        simp [skipGap, Gap.prepend] at this
    have hskipped := congrArg Gap.skipped h
    rw [skipGap_cons hcomment] at hskipped
    cases hblank : isBlank first with
    | true => simp [hblank, Gap.prepend] at hskipped
    | false =>
      cases hbreak : isLineBreak first with
      | true => simp [hblank, hbreak, Gap.prepend] at hskipped
      | false => exact ⟨rfl, rfl, hcomment⟩
  · rintro ⟨hblank, hbreak, hcomment⟩
    unfold StartsToken
    rw [skipGap_cons hcomment, hblank, hbreak]
    rfl

/-- No gap is left after a gap. -/
theorem startsToken_rest_skipGap (region : Region) (chars : List Char) :
    StartsToken (skipGap region chars).rest := by
  fun_induction skipGap region chars with
  | case1 => rfl
  | case2 rest ih => exact ih
  | case3 rest ih => exact ih
  | case4 c rest hline hblock hblank ih => exact ih
  | case5 c rest hline hblock hblank hbreak ih => exact ih
  | case6 c rest hline hblock hblank hbreak =>
    rw [startsToken_cons_iff]
    refine ⟨by simpa using hblank, by simpa using hbreak, ?_⟩
    rintro rfl d hd
    cases rest with
    | nil => cases hd
    | cons e rest =>
      cases hd
      unfold isCommentMark
      rw [Bool.or_eq_false_iff, beq_eq_false_iff_ne, beq_eq_false_iff_ne]
      exact ⟨fun he => hline rest rfl (he ▸ rfl), fun he => hblock rest rfl (he ▸ rfl)⟩
  | case7 c rest hfeed ih => exact ih
  | case8 c rest hfeed ih => exact ih
  | case9 star c rest next ih => exact ih

/-- A token that is read again begins a token. -/
theorem StartsToken.again {chars tail rest after : List Char} (h : StartsToken (first :: chars))
    (hchars : tail ++ rest = chars) (hafter : Apart after) :
    StartsToken (first :: (tail ++ after)) := by
  rw [startsToken_cons_iff] at h ⊢
  obtain ⟨hblank, hbreak, hcomment⟩ := h
  refine ⟨hblank, hbreak, ?_⟩
  intro hslash
  have hstops := hcomment hslash
  rw [← hchars] at hstops
  exact hstops.of_append.append (hafter.stops (by decide))

/-! ## Streams -/

/-- The stream that is left after a gap. -/
def scanAfter (start : Nat) (newline : Bool) : List Char → TokenStream
  | [] => ⟨[], start, newline⟩
  | first :: rest =>
    let read := lexeme first rest
    let stop := start + Source.byteLength read.text
    let later := scanFrom stop read.rest
    { later with
      tokens := ⟨read.kind, String.ofList read.text, ⟨start, stop⟩, newline⟩ :: later.tokens }

/-- Scanning skips the gap and goes on behind it. -/
theorem scanFrom_eq (offset : Nat) (chars : List Char) :
    scanFrom offset chars =
      scanAfter (offset + Source.byteLength (skipGap .between chars).skipped)
        (skipGap .between chars).newline (skipGap .between chars).rest := by
  rw [scanFrom]
  split
  · rename_i hrest
    rw [hrest]
    rfl
  · rename_i hrest
    rw [hrest]
    rfl

/-- An empty text has no tokens. -/
theorem scanFrom_nil (offset : Nat) : scanFrom offset [] = ⟨[], offset, false⟩ := by
  rw [scanFrom_eq]
  rfl

/-- A stream from its first token on. -/
theorem scanFrom_of_lexeme {chars rest text left : List Char} {kind : Kind} {skipped : List Char}
    (hgap : skipGap .between chars = ⟨skipped, newline, first :: rest⟩)
    (hread : lexeme first rest = ⟨kind, text, left⟩) {offset : Nat} :
    let start := offset + Source.byteLength skipped
    let stop := start + Source.byteLength text
    let later := scanFrom stop left
    scanFrom offset chars =
      { later with
        tokens := ⟨kind, String.ofList text, ⟨start, stop⟩, newline⟩ :: later.tokens } := by
  rw [scanFrom_eq, hgap]
  simp only [scanAfter, hread]

/-- Where a token begins, no gap is skipped. -/
theorem StartsToken.scanFrom (h : StartsToken chars) (offset : Nat) :
    scanFrom offset chars = scanAfter offset false chars := by
  rw [scanFrom_eq, h]
  rfl

/-- The text of a token begins with the character that it was read from. -/
theorem lexeme_text_cons (first : Char) (chars : List Char) :
    ∃ tail, (lexeme first chars).text = first :: tail ∧
      tail ++ (lexeme first chars).rest = chars := by
  have happend := lexeme_append first chars
  cases htext : (lexeme first chars).text with
  | nil => exact absurd htext (lexeme_ne_nil first chars)
  | cons c tail =>
    rw [htext] at happend
    obtain ⟨rfl, hrest⟩ := List.cons.inj happend
    exact ⟨tail, rfl, hrest⟩

/-- A text spells a kind when a token of that kind takes all of it. -/
theorem spells_iff {text : String} {kind : Kind} :
    Spells text kind ↔ ∃ first chars, text.toList = first :: chars ∧ StartsToken (first :: chars) ∧
      lexeme first chars = ⟨kind, first :: chars, []⟩ := by
  unfold Spells TokenStream.ofSource
  constructor
  · intro h
    cases hrest : (skipGap .between text.toList).rest with
    | nil => simp [scanFrom_eq, hrest, scanAfter] at h
    | cons first rest =>
      simp only [scanFrom_eq 0, hrest, scanAfter, List.map_cons, List.cons.injEq, Prod.mk.injEq,
        List.map_eq_nil_iff] at h
      obtain ⟨⟨hkind, htext⟩, -⟩ := h
      have hread : (lexeme first rest).text = text.toList := by
        rw [← htext, String.toList_ofList]
      have hgap := skipped_append_rest .between text.toList
      have hlexeme := lexeme_append first rest
      rw [hrest, ← hlexeme, hread] at hgap
      -- Nothing is skipped and nothing is left, since the token has all characters of the text.
      have hlength := congrArg List.length hgap
      simp only [List.length_append] at hlength
      have hskipped : (skipGap .between text.toList).skipped = [] :=
        List.length_eq_zero_iff.mp (by omega)
      have hleft : (lexeme first rest).rest = [] := List.length_eq_zero_iff.mp (by omega)
      rw [hread, hleft, List.append_nil] at hlexeme
      have hstarts := startsToken_rest_skipGap .between text.toList
      rw [hrest] at hstarts
      refine ⟨first, rest, hlexeme, hstarts, ?_⟩
      rw [← hlexeme, ← hread, ← hleft, ← hkind]
  · rintro ⟨first, chars, htext, hstarts, hread⟩
    rw [htext, hstarts.scanFrom]
    simp only [scanAfter, hread, List.map_cons, scanFrom_nil, List.map_nil, ← htext,
      String.ofList_toList]

/-- A mark is spelled as itself. -/
theorem spells_mark (mark : Mark) : Spells mark.spelling (.mark mark) := by
  cases mark <;> exact spells_iff.mpr ⟨_, _, rfl, rfl, rfl⟩

/-- A word is spelled as itself. -/
theorem spells_word (word : Word) : Spells word.spelling (.word word) := by
  cases word <;> exact spells_iff.mpr ⟨_, _, rfl, rfl, rfl⟩

/-- Every token that is not invalid spells its kind. -/
theorem spells_of_mem_scanFrom (offset : Nat) (chars : List Char) :
    ∀ token ∈ (scanFrom offset chars).tokens, token.kind ≠ .invalid →
      Spells token.text token.kind := by
  fun_induction scanFrom offset chars with
  | case1 => exact fun _ h => nomatch h
  | case2 offset chars gap start first rest hrest read stop token later ih =>
    intro other hother hkind
    rcases List.mem_cons.mp hother with rfl | hlater
    · obtain ⟨tail, htext, hchars⟩ := lexeme_text_cons first rest
      have hnone : Apart [] := fun _ h => nomatch h
      have hstarts := startsToken_rest_skipGap .between chars
      rw [hrest] at hstarts
      have hagain := takesAgain_lexeme first rest tail [] htext hkind hnone
      have hstartsAgain := hstarts.again hchars hnone
      rw [List.append_nil] at hagain hstartsAgain
      refine spells_iff.mpr ⟨first, tail, ?_, hstartsAgain, hagain⟩
      exact (String.toList_ofList).trans htext
    · exact ih other hlater hkind

/-- A text that spells a kind is read as one token in front of what is apart from it. -/
theorem scanAfter_append {text : String} {kind : Kind} (hkind : kind ≠ .invalid)
    (h : Spells text kind) (hafter : Apart after) (start : Nat) (newline : Bool) :
    StartsToken (text.toList ++ after) ∧ ∃ span stop,
      (scanAfter start newline (text.toList ++ after)).views =
        (⟨kind, text, span, newline⟩ : Token).view :: (scanFrom stop after).views := by
  obtain ⟨first, chars, htext, hstarts, hread⟩ := spells_iff.mp h
  have hagain : lexeme first (chars ++ after) = ⟨kind, first :: chars, after⟩ := by
    have htakes := takesAgain_lexeme first chars chars after (by rw [hread]; rfl)
      (by rw [hread]; exact hkind) hafter
    rw [hread] at htakes
    exact htakes
  let stop := start + Source.byteLength text.toList
  rw [htext, List.cons_append]
  refine ⟨hstarts.again (List.append_nil chars) hafter, ⟨start, stop⟩, stop, ?_⟩
  simp only [scanAfter, hagain, TokenStream.views, List.map_cons, List.cons_append]
  rw [← htext, String.ofList_toList]

/-! ## Streams written out -/

/-- What keeps a token apart from the one before it: a line feed, or a space. -/
def separator (newline : Bool) : Char := if newline then '\n' else ' '

/-- The texts of tokens, each after a line feed or a space as it is on a new line or not. -/
def separated (tokens : List Token) : List Char :=
  tokens.flatMap fun token => separator token.newlineBefore :: token.text.toList

/-- Tokens behind separators are apart. -/
theorem apart_separated (tokens : List Token) : Apart (separated tokens) := by
  intro c hc
  cases tokens with
  | nil => cases hc
  | cons token rest =>
    cases hc
    unfold separator
    split
    · exact .inr rfl
    · exact .inl rfl

/-- A separator is skipped. -/
theorem scanFrom_separator (h : StartsToken chars) (newline : Bool) (offset : Nat) :
    scanFrom offset (separator newline :: chars) = scanAfter (offset + 1) newline chars := by
  have hgap : skipGap .between (separator newline :: chars) =
      (skipGap .between chars).prepend [separator newline] newline := by
    rw [skipGap_cons (by cases newline <;> exact fun hslash => nomatch hslash)]
    cases newline <;> rfl
  have hsize : (separator newline).utf8Size = 1 := by cases newline <;> rfl
  rw [scanFrom_eq, hgap, h]
  simp [Gap.prepend, Source.byteLength, hsize]

/-- Valid tokens that are written with separators are read back one by one. -/
theorem views_separated (h : ∀ token ∈ tokens, token.kind ≠ .invalid ∧ Spells token.text token.kind)
    (offset : Nat) :
    (scanFrom offset (separated tokens)).views = tokens.map Token.view ++ [⟨none, "", false⟩] := by
  induction tokens generalizing offset with
  | nil =>
    change (scanFrom offset []).views = _
    rw [scanFrom_nil]
    rfl
  | cons token rest ih =>
    obtain ⟨⟨hkind, hspells⟩, hrest⟩ := List.forall_mem_cons.mp h
    obtain ⟨hstarts, span, stop, hviews⟩ := scanAfter_append hkind hspells (apart_separated rest)
      (offset + 1) token.newlineBefore
    change (scanFrom offset (separator token.newlineBefore ::
      (token.text.toList ++ separated rest))).views = _
    rw [scanFrom_separator hstarts, hviews, ih hrest]
    rfl

/-- The tokens on one line, or each of them on a new line but the first. -/
def onLines (newline : Bool) : List Token → List Token
  | [] => []
  | first :: rest =>
    { first with newlineBefore := false } :: rest.map ({ · with newlineBefore := newline })

/-- Tokens on lines keep their kinds and texts. -/
theorem map_onLines (newline : Bool) (tokens : List Token) :
    (onLines newline tokens).map (fun token => (token.kind, token.text)) =
      tokens.map fun token => (token.kind, token.text) := by
  cases tokens with
  | nil => rfl
  | cons first rest => simp [onLines]

/-- Tokens on lines are those they were. -/
theorem mem_onLines {token : Token} (h : token ∈ onLines newline tokens) :
    (newline = false → token.newlineBefore = false) ∧
      ∃ other ∈ tokens, other.kind = token.kind ∧ other.text = token.text := by
  cases tokens with
  | nil => cases h
  | cons first rest =>
    rcases List.mem_cons.mp h with rfl | hrest
    · exact ⟨fun _ => rfl, first, List.mem_cons_self, rfl, rfl⟩
    · obtain ⟨other, hother, rfl⟩ := List.mem_map.mp hrest
      exact ⟨id, other, List.mem_cons_of_mem first hother, rfl, rfl⟩

/-- Texts joined are texts behind separators. -/
theorem toList_intercalate (newline : Bool) (first : String) (rest : List Token) :
    ((String.singleton (separator newline)).intercalate (first :: rest.map (·.text))).toList =
      first.toList ++ separated (rest.map ({ · with newlineBefore := newline })) := by
  induction rest generalizing first with
  | nil =>
    rw [List.map_nil, String.intercalate_singleton]
    exact (List.append_nil _).symm
  | cons token rest ih =>
    rw [List.map_cons, String.intercalate_cons_cons, String.toList_append, String.toList_append,
      ih token.text, String.toList_singleton]
    simp [separated]

/-- Valid tokens that are written with a separator between them are read back one by one. -/
theorem views_intercalate (newline : Bool)
    (h : ∀ token ∈ tokens, token.kind ≠ .invalid ∧ Spells token.text token.kind) (offset : Nat) :
    (scanFrom offset ((String.singleton (separator newline)).intercalate
        (tokens.map (·.text))).toList).views =
      (onLines newline tokens).map Token.view ++ [⟨none, "", false⟩] := by
  cases tokens with
  | nil => exact views_separated h offset
  | cons first rest =>
    obtain ⟨⟨hkind, hspells⟩, hrest⟩ := List.forall_mem_cons.mp h
    let later : List Token := rest.map ({ · with newlineBefore := newline })
    have hlater : ∀ token ∈ later, token.kind ≠ .invalid ∧ Spells token.text token.kind :=
      List.forall_mem_map.mpr hrest
    obtain ⟨hstarts, span, stop, hviews⟩ := scanAfter_append hkind hspells
      (apart_separated later) offset false
    rw [List.map_cons, toList_intercalate, hstarts.scanFrom, hviews, views_separated hlater]
    rfl

/-- Texts that spell kinds are those of some tokens. -/
theorem exists_tokens (h : ∀ text ∈ texts, ∃ kind, kind ≠ .invalid ∧ Spells text kind) :
    ∃ tokens : List Token, tokens.map (·.text) = texts ∧
      ∀ token ∈ tokens, token.kind ≠ .invalid ∧ Spells token.text token.kind := by
  induction texts with
  | nil => exact ⟨[], rfl, List.forall_mem_nil _⟩
  | cons text texts ih =>
    obtain ⟨⟨kind, hkind⟩, hrest⟩ := List.forall_mem_cons.mp h
    obtain ⟨tokens, rfl, htokens⟩ := ih hrest
    exact ⟨⟨kind, text, Span.point 0, false⟩ :: tokens, rfl,
      List.forall_mem_cons.mpr ⟨hkind, htokens⟩⟩

/-- Texts that spell kinds, with single spaces between them, are read back one by one, and no line
break is seen. -/
theorem scanFrom_intercalate (h : ∀ text ∈ texts, ∃ kind, kind ≠ .invalid ∧ Spells text kind)
    (offset : Nat) :
    (scanFrom offset (" ".intercalate texts).toList).tokens.map (·.text) = texts ∧
      ∀ token ∈ (scanFrom offset (" ".intercalate texts).toList).tokens,
        token.newlineBefore = false ∧ Spells token.text token.kind := by
  obtain ⟨tokens, rfl, htokens⟩ := exists_tokens h
  have hviews := (TokenStream.views_eq_iff.mp (views_intercalate false htokens offset)).1
  change (scanFrom offset (" ".intercalate (tokens.map (·.text))).toList).tokens.map Token.view =
    _ at hviews
  constructor
  · have htexts := congrArg (List.map TokenView.text) hviews
    have hkept := congrArg (List.map Prod.snd) (map_onLines false tokens)
    simp only [List.map_map] at htexts hkept
    exact htexts.trans hkept
  · intro token htoken
    have hmem : token.view ∈ (onLines false tokens).map Token.view :=
      hviews ▸ List.mem_map_of_mem htoken
    obtain ⟨other, hother, hview⟩ := List.mem_map.mp hmem
    obtain ⟨hline, valid, hvalid, hkind, htext⟩ := mem_onLines hother
    obtain ⟨hsame, hsameText, hsameLine⟩ := TokenView.mk.inj hview
    refine ⟨hsameLine ▸ hline rfl, ?_⟩
    rw [← hsameText, ← Option.some.inj hsame, ← hkind, ← htext]
    exact (htokens valid hvalid).2

/-- A text that spells a kind is one token from its first character to its last. -/
theorem ofSource_of_spells {text : String} {kind : Kind} (h : Spells text kind) :
    let size := Source.byteLength text.toList
    TokenStream.ofSource text = ⟨[⟨kind, text, ⟨0, size⟩, false⟩], size, false⟩ := by
  intro size
  obtain ⟨first, chars, htext, hstarts, hread⟩ := spells_iff.mp h
  unfold TokenStream.ofSource
  rw [htext, hstarts.scanFrom]
  simp only [scanAfter, hread, ← htext, String.ofList_toList, Nat.zero_add]
  rw [scanFrom_nil]

end Scan

/-- The tokens of a source text, if none of them is invalid, are read again from their texts with
single spaces or single line feeds between them. The text of a valid token alone is read as that
token and nothing else. -/
theorem TokenStream.ofSource_intercalate (source : String) :
    let tokens := (TokenStream.ofSource source).tokens
    ((∀ token ∈ tokens, token.kind ≠ .invalid) → ∀ separator ∈ [" ", "\n"],
      (TokenStream.ofSource (separator.intercalate (tokens.map (·.text)))).tokens.map
          (fun token => (token.kind, token.text)) =
        tokens.map fun token => (token.kind, token.text)) ∧
      ∀ token ∈ tokens, token.kind ≠ .invalid →
        let size := Source.byteLength token.text.toList
        TokenStream.ofSource token.text =
          ⟨[⟨token.kind, token.text, ⟨0, size⟩, false⟩], size, false⟩ := by
  intro tokens
  have hspells := Scan.spells_of_mem_scanFrom 0 source.toList
  constructor
  · intro hvalid separator hseparator
    obtain ⟨newline, rfl⟩ : ∃ newline, separator = String.singleton (Scan.separator newline) := by
      simp only [List.mem_cons, List.not_mem_nil, or_false] at hseparator
      rcases hseparator with rfl | rfl
      · exact ⟨false, rfl⟩
      · exact ⟨true, rfl⟩
    have hviews := Scan.views_intercalate newline
      (fun token htoken => ⟨hvalid token htoken, hspells token htoken (hvalid token htoken)⟩) 0
    have hpairs := congrArg (List.map fun view => (view.kind?.getD .invalid, view.text))
      (views_eq_iff.mp hviews).1
    rw [List.map_map, List.map_map] at hpairs
    exact hpairs.trans (Scan.map_onLines newline tokens)
  · exact fun token htoken hvalid => Scan.ofSource_of_spells (hspells token htoken hvalid)

/-- Two numbers that touch a mark. -/
theorem TokenStream.ofSource_intercalate_numbers :
    (TokenStream.ofSource "1.e5>>>=.5").tokens.map (·.text) = ["1.e5", ">>>=", ".5"] ∧
      ∀ separator ∈ [" ", "\n"],
        (TokenStream.ofSource (separator.intercalate ["1.e5", ">>>=", ".5"])).tokens.map
            (fun token => (token.kind, token.text)) =
          [(.number, "1.e5"), (.mark .shiftRightZeroAssign, ">>>="), (.number, ".5")] := by
  have htokens : (TokenStream.ofSource "1.e5>>>=.5").tokens =
      [⟨.number, "1.e5", ⟨0, 4⟩, false⟩, ⟨.mark .shiftRightZeroAssign, ">>>=", ⟨4, 8⟩, false⟩,
        ⟨.number, ".5", ⟨8, 10⟩, false⟩] := by
    have hfirst : Scan.lexeme '1' ".e5>>>=.5".toList =
        ⟨.number, "1.e5".toList, ">>>=.5".toList⟩ := by decide
    have hsecond : Scan.lexeme '>' ">>=.5".toList =
        ⟨.mark .shiftRightZeroAssign, ">>>=".toList, ".5".toList⟩ := by decide
    have hthird : Scan.lexeme '.' "5".toList = ⟨.number, ".5".toList, []⟩ := by decide
    rw [TokenStream.ofSource, Scan.scanFrom_of_lexeme rfl hfirst,
      Scan.scanFrom_of_lexeme rfl hsecond, Scan.scanFrom_of_lexeme rfl hthird, Scan.scanFrom_nil]
    rfl
  have hagain := (TokenStream.ofSource_intercalate "1.e5>>>=.5").1
  rw [htokens] at hagain ⊢
  exact ⟨rfl, hagain (by decide)⟩

end TreeScript
