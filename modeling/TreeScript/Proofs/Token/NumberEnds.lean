import TreeScript.Proofs.Decimal.Numerals

/-!
# Where numbers end

A number is read as far as a numeral goes: of all numerals that the text begins with, the longest is
taken. What follows it must not begin like a name, and after an integer with a base mark not even
like the middle of one. If it does, then the numeral and the name are one invalid token.

A number that begins with its point is the exception. It is read without a look at what follows, so
it may run into a name, which is then a token of its own.
-/

namespace TreeScript

/-- There is a longest text at a place where there is any. -/
theorem IsLongest.exists_of_leads {allowed : List Char → Prop} {text chars : List Char}
    (hallowed : allowed text) (hleads : text <+: chars) :
    ∃ longest, IsLongest allowed longest chars := by
  by_cases hlonger : ∃ other, allowed other ∧ other <+: chars ∧ text.length < other.length
  · obtain ⟨other, hother, hprefix, hlength⟩ := hlonger
    exact IsLongest.exists_of_leads hother hprefix
  · refine ⟨text, hallowed, hleads, fun other hother hprefix => Nat.le_of_not_lt fun hlength => ?_⟩
    exact hlonger ⟨other, hother, hprefix, hlength⟩
termination_by chars.length - text.length
decreasing_by
  have := hprefix.length_le
  omega

/-! ## Numerals of every notation -/

/-- An integer with a base mark as it is written: a zero, the letter of the base and at least one
digit. -/
structure WrittenInteger where
  radix : Radix
  letter : Char
  digits : List Char
  announces : Scan.radixOfLetter? letter = some radix
  isDigit : ∀ c ∈ digits, Scan.isDigitOf radix c = true
  nonempty : digits ≠ []

/-- A numeral of any notation. -/
inductive WrittenNumeral where
  | decimal (number : WrittenNumber)
  | based (integer : WrittenInteger)

namespace WrittenNumeral

/-- The characters of a numeral. -/
def chars : WrittenNumeral → List Char
  | decimal number => number.chars
  | based integer => '0' :: integer.letter :: integer.digits

/-- The kind of the token that a numeral is read as. -/
def kind : WrittenNumeral → Kind
  | decimal _ => .number
  | based integer => .radixNumber integer.radix

/-- Whether a numeral must not be followed by a character. -/
def glues : WrittenNumeral → Char → Bool
  | decimal _ => Text.isNameStart
  | based _ => Text.isNamePart

/-- Whether a numeral begins with its point. -/
def beginsWithPoint (numeral : WrittenNumeral) : Bool := numeral.chars.head? == some '.'

end WrittenNumeral

/-- The texts of numerals. -/
def IsNumeral (text : List Char) : Prop := ∃ numeral : WrittenNumeral, numeral.chars = text

namespace Scan

open Text (isNameStart isNamePart isNamePart_of_isNameStart)
open WrittenNumber

variable {number : WrittenNumber} {rest : List Char} {c first : Char} {numeral : WrittenNumeral}

/-! ## Decimal numerals are split off whole -/

/-- A digit, or a point and a digit after it. -/
def BeginsNumber (chars : List Char) : Prop :=
  (∃ digit rest, chars = digit :: rest ∧ digit.isDigit = true) ∨ BeginsFraction chars

/-- A written number begins one. -/
theorem beginsNumber_chars (number : WrittenNumber) (rest : List Char) :
    BeginsNumber (number.chars ++ rest) := by
  obtain ⟨⟨whole, hwhole⟩, fraction?, exponent?, hnonempty⟩ := number
  cases whole with
  | cons digit digits => exact .inl ⟨digit, _, rfl, hwhole digit List.mem_cons_self⟩
  | nil =>
    obtain ⟨fraction, hfraction, hdigits⟩ := hnonempty.resolve_left fun hne => hne rfl
    obtain rfl : fraction? = some fraction := hfraction
    obtain ⟨digit, digits, hrun⟩ := List.exists_cons_of_ne_nil hdigits
    refine .inr ⟨digit, digits ++ exponentChars exponent? ++ rest, ?_,
      fraction.isDigit digit (hrun ▸ List.mem_cons_self)⟩
    change '.' :: fraction.chars ++ exponentChars exponent? ++ rest = _
    rw [hrun]
    rfl

/-- What is split off is a sign. -/
theorem exists_sign (chars : List Char) :
    ∃ sign : WrittenSign, (splitSign chars).1 = sign.chars := by
  fun_cases splitSign chars with
  | case1 c rest hc =>
    rcases Bool.or_eq_true_iff.mp hc with hplus | hminus
    · exact ⟨.plus, by rw [beq_iff_eq.mp hplus]; rfl⟩
    · exact ⟨.minus, by rw [beq_iff_eq.mp hminus]; rfl⟩
  | case2 => exact ⟨.absent, rfl⟩
  | case3 => exact ⟨.absent, rfl⟩

/-- What is split off is an exponent. -/
theorem exists_exponent (chars : List Char) :
    ∃ exponent? : Option ExponentPart, (splitExponent chars).1 = exponentChars exponent? := by
  cases chars with
  | nil => exact ⟨none, rfl⟩
  | cons c rest =>
    rw [splitExponent_cons]
    dsimp only
    split
    · rename_i h
      obtain ⟨hmark, hdigits⟩ := Bool.and_eq_true_iff.mp h
      obtain ⟨sign, hsign⟩ := exists_sign rest
      rw [Bool.not_eq_true', List.isEmpty_eq_false_iff] at hdigits
      refine ⟨some ⟨c, sign, .ofFront (splitSign rest).2, hmark, hdigits⟩, ?_⟩
      rw [hsign]
      rfl
    · exact ⟨none, rfl⟩

/-- What is split off is a fraction. -/
theorem exists_fraction (chars : List Char) :
    ∃ fraction? : Option DigitRun, (splitFraction chars).1 = fractionChars fraction? := by
  fun_cases splitFraction chars with
  | case1 rest => exact ⟨some (.ofFront rest), rfl⟩
  | case2 => exact ⟨none, rfl⟩

/-- What is split off where a number begins is a numeral. -/
theorem isNumeral_splitNumber {chars : List Char} (h : BeginsNumber chars) :
    IsNumeral (splitNumber chars).1 := by
  obtain ⟨exponent?, hexponent⟩ :=
    exists_exponent (splitFraction (chars.dropWhile Char.isDigit)).2
  obtain ⟨digit, rest, rfl, hdigit⟩ | ⟨digit, rest, rfl, hdigit⟩ := h
  · obtain ⟨fraction?, hfraction⟩ := exists_fraction ((digit :: rest).dropWhile Char.isDigit)
    have hwhole : (DigitRun.ofFront (digit :: rest)).chars ≠ [] := by
      change (digit :: rest).takeWhile Char.isDigit ≠ []
      rw [List.takeWhile_cons_of_pos hdigit]
      exact List.cons_ne_nil _ _
    refine ⟨.decimal ⟨_, fraction?, exponent?, .inl hwhole⟩, ?_⟩
    change _ ++ (fractionChars fraction? ++ exponentChars exponent?) = _
    rw [← hfraction, ← hexponent]
    rfl
  · let fraction := DigitRun.ofFront (digit :: rest)
    have hfraction : fraction.chars ≠ [] := by
      change (digit :: rest).takeWhile Char.isDigit ≠ []
      rw [List.takeWhile_cons_of_pos hdigit]
      exact List.cons_ne_nil _ _
    refine ⟨.decimal ⟨.ofFront [], some fraction, exponent?, .inr ⟨fraction, rfl, hfraction⟩⟩, ?_⟩
    change '.' :: fraction.chars ++ exponentChars exponent? = _
    rw [← hexponent]
    rfl

/-- A number is split off the text. -/
theorem splitNumber_append (chars : List Char) :
    (splitNumber chars).1 ++ (splitNumber chars).2 = chars := by
  simp [splitNumber, List.append_assoc, splitExponent_append, splitFraction_append]

/-- An exponent is split off with all of its digits. -/
theorem leads_splitExponent (part : ExponentPart) (after : List Char) :
    part.chars <+: (splitExponent (part.chars ++ after)).1 := by
  have hsign : Stops isExponentSign (part.digits.chars ++ after) := by
    obtain ⟨digit, digits, hdigits⟩ := List.exists_cons_of_ne_nil part.nonempty
    rw [hdigits]
    exact stops_cons (isExponentSign_of_isDigit
      (part.digits.isDigit digit (hdigits ▸ List.mem_cons_self))) _
  have hsplit : splitSign (part.sign.chars ++ part.digits.chars ++ after) =
      (part.sign.chars, part.digits.chars ++ after) := by
    rw [List.append_assoc]
    exact splitSign_append_of_stops _ hsign
  have hrun : (part.digits.chars ++ after).takeWhile Char.isDigit =
      part.digits.chars ++ after.takeWhile Char.isDigit :=
    List.takeWhile_append_of_pos part.digits.isDigit
  have hwhole : (isExponentMark part.mark &&
      !(part.digits.chars ++ after.takeWhile Char.isDigit).isEmpty) = true := by
    simp [part.isMark, part.nonempty]
  change _ <+: (splitExponent (part.mark :: (part.sign.chars ++ part.digits.chars ++ after))).1
  rw [splitExponent_cons]
  simp only [hsplit, hrun, hwhole, if_true]
  refine ⟨after.takeWhile Char.isDigit, ?_⟩
  simp [ExponentPart.chars]

/-- What follows the digits of a numeral is split off whole. -/
theorem leads_splitFraction (fraction? : Option DigitRun) (exponent? : Option ExponentPart)
    (after : List Char) (h : ¬ (fraction? = none ∧ exponent? = none)) :
    let chars := fractionChars fraction? ++ (exponentChars exponent? ++ after)
    fractionChars fraction? ++ exponentChars exponent? <+:
      (splitFraction chars).1 ++ (splitExponent (splitFraction chars).2).1 := by
  intro chars
  cases exponent? with
  | some part =>
    have hstops {test : Char → Bool} (he : test 'e' = false) (hE : test 'E' = false) :
        Stops test (exponentChars (some part) ++ after) := by
      have hmark := stops_exponentChars he hE (some part)
      exact stops_cons (hmark part.mark rfl) _
    have hsplit : splitFraction chars =
        (fractionChars fraction?, exponentChars (some part) ++ after) :=
      splitFraction_append_of_stops _ (hstops rfl rfl) (hstops rfl rfl)
    rw [hsplit]
    exact (List.prefix_append_right_inj _).mpr (leads_splitExponent part after)
  | none =>
    cases fraction? with
    | none => exact absurd ⟨rfl, rfl⟩ h
    | some fraction =>
      have hsplit : (splitFraction chars).1 =
          '.' :: (fraction.chars ++ after.takeWhile Char.isDigit) :=
        congrArg ('.' :: ·) (List.takeWhile_append_of_pos fraction.isDigit)
      rw [hsplit]
      refine ⟨after.takeWhile Char.isDigit ++ (splitExponent (splitFraction chars).2).1, ?_⟩
      simp [fractionChars, exponentChars]

/-- A numeral is split off with all of its parts. -/
theorem leads_splitNumber (number : WrittenNumber) (after : List Char) :
    number.chars <+: (splitNumber (number.chars ++ after)).1 := by
  obtain ⟨whole, fraction?, exponent?, hnonempty⟩ := number
  change whole.chars ++ (fractionChars fraction? ++ exponentChars exponent?) <+: _
  by_cases hdigits : fraction? = none ∧ exponent? = none
  · obtain ⟨rfl, rfl⟩ := hdigits
    have hchars : WrittenNumber.chars ⟨whole, none, none, hnonempty⟩ = whole.chars := by
      simp [WrittenNumber.chars, fractionChars, exponentChars]
    rw [hchars, splitNumber, List.takeWhile_append_of_pos whole.isDigit]
    simp only [fractionChars, exponentChars, Option.elim_none, List.append_nil, List.append_assoc]
    exact List.prefix_append _ _
  · have hstops : Stops Char.isDigit
        (fractionChars fraction? ++ (exponentChars exponent? ++ after)) := by
      have hparts : Stops Char.isDigit (fractionChars fraction? ++ exponentChars exponent?) :=
        stops_afterWhole rfl rfl rfl _ _
      rw [← List.append_assoc]
      cases hrun : fractionChars fraction? ++ exponentChars exponent? with
      | nil =>
        refine absurd ?_ hdigits
        cases fraction? with
        | some fraction => cases hrun
        | none =>
          cases exponent? with
          | some part => cases hrun
          | none => exact ⟨rfl, rfl⟩
      | cons c run =>
        rw [hrun] at hparts
        exact stops_cons (hparts c rfl) _
    have hparts := leads_splitFraction fraction? exponent? after hdigits
    simp only [WrittenNumber.chars, List.append_assoc, splitNumber,
      takeWhile_append_of_stops whole.isDigit hstops,
      dropWhile_append_of_stops whole.isDigit hstops]
    exact (List.prefix_append_right_inj _).mpr hparts

/-- The longest numeral in decimal notation is what is split off. -/
theorem splitNumber_of_isLongest (h : IsLongest IsNumeral number.chars (number.chars ++ rest)) :
    splitNumber (number.chars ++ rest) = (number.chars, rest) := by
  have happend := splitNumber_append (number.chars ++ rest)
  have hleads := leads_splitNumber number rest
  have hnumeral := isNumeral_splitNumber (beginsNumber_chars number rest)
  have hlength := h.longest _ hnumeral ⟨_, happend⟩
  have hsame : number.chars = (splitNumber (number.chars ++ rest)).1 :=
    hleads.eq_of_length_le hlength
  refine Prod.ext hsame.symm ?_
  rw [← hsame] at happend
  exact List.append_cancel_left happend

/-! ## Longest numerals are read -/

/-- The letters of bases are neither digits nor points nor marks of exponents, and may begin
names. -/
theorem class_of_radixOfLetter? {radix : Radix} (h : radixOfLetter? c = some radix) :
    c.isDigit = false ∧ (c == '.') = false ∧ isExponentMark c = false ∧ isNameStart c = true := by
  simp only [radixOfLetter?, Bool.or_eq_true, beq_iff_eq] at h
  split at h
  · rename_i hc
    rcases hc with rfl | rfl <;> exact ⟨rfl, rfl, rfl, Text.isNameStart_of_ascii (by decide)⟩
  split at h
  · rename_i hc
    rcases hc with rfl | rfl <;> exact ⟨rfl, rfl, rfl, Text.isNameStart_of_ascii (by decide)⟩
  split at h
  · rename_i hc
    rcases hc with rfl | rfl <;> exact ⟨rfl, rfl, rfl, Text.isNameStart_of_ascii (by decide)⟩
  · cases h

/-- One more digit is one more split off. -/
theorem splitNumber_cons_of_isDigit (h : first.isDigit = true) (chars : List Char) :
    splitNumber (first :: chars) = (first :: (splitNumber chars).1, (splitNumber chars).2) := by
  simp only [splitNumber, List.takeWhile_cons_of_pos h, List.dropWhile_cons_of_pos h,
    List.cons_append]

/-- Where no part of a numeral begins, none is split off. -/
theorem splitNumber_of_stops {chars : List Char} (hdigit : Stops Char.isDigit chars)
    (hpoint : Stops (· == '.') chars) (hmark : Stops isExponentMark chars) :
    splitNumber chars = ([], chars) := by
  have htake : ([] ++ chars).takeWhile Char.isDigit = [] :=
    takeWhile_append_of_stops (List.forall_mem_nil _) hdigit
  have hdrop : ([] ++ chars).dropWhile Char.isDigit = chars :=
    dropWhile_append_of_stops (List.forall_mem_nil _) hdigit
  rw [List.nil_append] at htake hdrop
  have hfraction := splitFraction_append_of_stops none hdigit hpoint
  change splitFraction chars = ([], chars) at hfraction
  simp only [splitNumber, htake, hdrop, hfraction, splitExponent_of_stops hmark, List.append_nil]

/-- A zero in front of the letter of a base is the longest numeral only if no digit follows; the
letter then belongs to a name that the zero runs into. -/
theorem radixNumber_of_isLongest {radix : Radix} (hc : radixOfLetter? c = some radix)
    (h : IsLongest IsNumeral ['0'] ('0' :: c :: rest)) :
    radixNumber radix ['0', c] rest = unlessGlued isNameStart .number ['0'] (c :: rest) := by
  have hnone : rest.takeWhile (isDigitOf radix) = [] := by
    by_contra hdigits
    let integer : WrittenInteger :=
      ⟨radix, c, rest.takeWhile (isDigitOf radix), hc, fun _ => List.mem_takeWhile_imp, hdigits⟩
    have hleads : (WrittenNumeral.based integer).chars <+: '0' :: c :: rest :=
      ⟨rest.dropWhile (isDigitOf radix), by
        change '0' :: c :: (rest.takeWhile _ ++ rest.dropWhile _) = _
        rw [List.takeWhile_append_dropWhile]⟩
    have hlength := h.longest _ ⟨_, rfl⟩ hleads
    simp [WrittenNumeral.chars] at hlength
  have hstart := (class_of_radixOfLetter? hc).2.2.2
  have hpart := isNamePart_of_isNameStart hstart
  have hrest : rest.dropWhile (isDigitOf radix) = rest := by
    have hall := List.takeWhile_append_dropWhile (p := isDigitOf radix) (l := rest)
    rwa [hnone] at hall
  simp [radixNumber, unlessGlued, hnone, hrest, hstart, hpart]

/-- The longest decimal numeral is read. -/
theorem lexeme_of_decimal {rest chars : List Char} (hchars : number.chars ++ rest = first :: chars)
    (h : IsLongest IsNumeral number.chars (number.chars ++ rest)) :
    lexeme first chars = if first = '.' then ⟨.number, number.chars, rest⟩
      else unlessGlued isNameStart .number number.chars rest := by
  have hsplit := splitNumber_of_isLongest h
  rw [hchars] at hsplit h
  obtain ⟨digit, tail, htail, hdigit⟩ | hpoint := hchars ▸ beginsNumber_chars number rest
  · obtain ⟨rfl, rfl⟩ := List.cons.inj htail
    have hfirst : first ≠ '.' := by
      rintro rfl
      cases hdigit
    rw [splitNumber_cons_of_isDigit hdigit, Prod.mk.injEq] at hsplit
    obtain ⟨hnumber, rfl⟩ := hsplit
    rw [if_neg hfirst, lexeme_of_isDigit hdigit, ← hnumber]
    by_cases hstops : Stops (announcesRadix first) chars
    · rw [number_of_stops hstops, decimalNumber_eq]
    · obtain ⟨c, tail, rfl, rfl, radix, hc⟩ := exists_radix_of_not_stops hstops
      obtain ⟨hdigit', hpoint, hmark, -⟩ := class_of_radixOfLetter? hc
      have hnone := splitNumber_of_stops (stops_cons hdigit' tail) (stops_iff.mpr hpoint)
        (stops_cons hmark tail)
      rw [hnone] at hnumber ⊢
      rw [number_of_announces rfl hc]
      exact radixNumber_of_isLongest hc (hnumber ▸ h)
  · obtain ⟨digit, tail, htail, -⟩ := id hpoint
    obtain ⟨rfl, rfl⟩ := List.cons.inj htail
    rw [if_pos rfl, lexeme_of_beginsFraction hpoint]
    exact congrArg (fun parts : List Char × List Char => Lexeme.mk .number parts.1 parts.2) hsplit

/-- The longest numeral with a radix is read. -/
theorem lexeme_of_based {integer : WrittenInteger}
    (h : IsLongest IsNumeral (WrittenNumeral.based integer).chars
      ((WrittenNumeral.based integer).chars ++ rest)) :
    lexeme '0' (integer.letter :: (integer.digits ++ rest)) =
      unlessGlued isNamePart (.radixNumber integer.radix) (WrittenNumeral.based integer).chars
        rest := by
  have hstops : Stops (isDigitOf integer.radix) rest := by
    intro c hc
    by_contra hdigit
    rw [Bool.not_eq_false] at hdigit
    obtain ⟨tail, rfl⟩ : ∃ tail, rest = c :: tail := List.head?_eq_some_iff.mp hc
    let longer : WrittenInteger :=
      { integer with
        digits := integer.digits ++ [c]
        isDigit := by
          intro d hd
          rcases List.mem_append.mp hd with hd | hd
          · exact integer.isDigit d hd
          · rwa [List.mem_singleton.mp hd]
        nonempty := by simp }
    have hlength := h.longest (WrittenNumeral.based longer).chars ⟨_, rfl⟩
      ⟨tail, by simp [WrittenNumeral.chars, longer]⟩
    simp [WrittenNumeral.chars, longer] at hlength
  have hdigits : (integer.digits ++ rest).takeWhile (isDigitOf integer.radix) = integer.digits :=
    takeWhile_append_of_stops integer.isDigit hstops
  have hrest : (integer.digits ++ rest).dropWhile (isDigitOf integer.radix) = rest :=
    dropWhile_append_of_stops integer.isDigit hstops
  rw [lexeme_of_isDigit rfl, number_of_announces rfl integer.announces]
  simp [radixNumber, hdigits, hrest, integer.nonempty, WrittenNumeral.chars]

/-- The longest numeral that a text begins with is read as a number, or together with the name that
it runs into as an invalid token. A numeral that begins with its point is read in any case. -/
theorem lexeme_of_numeral {rest chars : List Char} (hchars : numeral.chars ++ rest = first :: chars)
    (h : IsLongest IsNumeral numeral.chars (first :: chars)) :
    lexeme first chars =
      if numeral.beginsWithPoint then ⟨numeral.kind, numeral.chars, rest⟩
      else unlessGlued numeral.glues numeral.kind numeral.chars rest := by
  rw [← hchars] at h
  cases numeral with
  | decimal number =>
    have hfirst : number.chars.head? = some first := by
      obtain ⟨c, tail, htail, -⟩ := number.exists_first
      change number.chars ++ rest = _ at hchars
      rw [htail] at hchars ⊢
      exact congrArg some (List.cons.inj hchars).1
    have hpoint : (WrittenNumeral.decimal number).beginsWithPoint = decide (first = '.') := by
      change (number.chars.head? == some '.') = _
      rw [hfirst]
      rfl
    rw [hpoint, lexeme_of_decimal hchars h]
    simp only [decide_eq_true_eq]
    rfl
  | based integer =>
    obtain ⟨rfl, rfl⟩ := List.cons.inj hchars
    exact lexeme_of_based h

/-- A name or a word is read. -/
theorem kind_nameOrWord_cases (first : Char) (chars : List Char) :
    (nameOrWord first chars).kind = .name ∨ ∃ word, (nameOrWord first chars).kind = .word word := by
  rw [kind_nameOrWord]
  cases Word.ofSpelling? (String.ofList (nameOrWord first chars).text) with
  | none => exact .inl rfl
  | some word => exact .inr ⟨word, rfl⟩

/-- Only numbers are read as such, and they begin with a digit or with a point and a digit. -/
theorem beginsNumber_of_isNumeric {chars : List Char}
    (h : (lexeme first chars).kind.isNumeric = true) : BeginsNumber (first :: chars) := by
  rw [lexeme_eq] at h
  split at h
  · rcases kind_quotedTail first chars with hkind | hkind
    all_goals
      change (quotedTail first chars).kind.isNumeric = true at h
      rw [hkind] at h
      cases h
  split at h
  · rename_i hdigit
    exact .inl ⟨first, chars, rfl, hdigit⟩
  split at h
  · rcases kind_nameOrWord_cases first chars with hkind | ⟨word, hkind⟩
    all_goals
      rw [hkind] at h
      cases h
  split at h
  · rename_i hpoint
    exact .inr (beginsFraction_iff.mp hpoint)
  · unfold markOrInvalid at h
    split at h <;> cases h

/-- Where a number begins, there is a longest numeral. -/
theorem exists_longest_numeral {chars : List Char} (h : BeginsNumber chars) :
    ∃ numeral : WrittenNumeral, IsLongest IsNumeral numeral.chars chars := by
  obtain ⟨_, hlongest⟩ := IsLongest.exists_of_leads (isNumeral_splitNumber h)
    ⟨_, splitNumber_append chars⟩
  obtain ⟨numeral, rfl⟩ := hlongest.allows
  exact ⟨numeral, hlongest⟩

/-! ## Streams -/

/-- A name begins a token. -/
theorem startsToken_of_isNameStart (h : isNameStart c = true) (chars : List Char) :
    StartsToken (c :: chars) := by
  have hne {d : Char} (hd : isNameStart d = false) : c ≠ d := by
    rintro rfl
    rw [h] at hd
    cases hd
  have hgap {d : Char} (hd : d ∈ [' ', '\t', '\ufeff', '\n', '\r', '\u2028', '\u2029']) : c ≠ d :=
    hne (Text.isNameStart_of_gap hd)
  rw [startsToken_cons_iff, isBlank, isLineBreak, isLineFeed]
  simp only [Bool.or_eq_false_iff, beq_eq_false_iff_ne]
  refine ⟨⟨⟨hgap ?_, hgap ?_⟩, hgap ?_⟩, ⟨⟨⟨hgap ?_, hgap ?_⟩, hgap ?_⟩, hgap ?_⟩,
    fun hslash => absurd hslash (hne (Text.isNameStart_of_ascii ?_))⟩ <;> decide

/-- A name that begins where a text does is its first token. -/
theorem name_mem_scanFrom (h : isNameStart c = true) (offset : Nat) (rest : List Char) :
    ∃ token ∈ (scanFrom offset (c :: rest)).tokens, token.span.start = offset ∧
      (token.kind = .name ∨ ∃ word, token.kind = .word word) := by
  have hkind := kind_nameOrWord_cases c rest
  rw [← lexeme_of_isNameStart h] at hkind
  rw [scanFrom_of_lexeme (startsToken_of_isNameStart h rest) rfl]
  exact ⟨_, List.mem_cons_self, rfl, hkind⟩

/-- Where the longest numeral runs into a name, both are one invalid token, unless the numeral
begins with its point. -/
theorem lexeme_of_glued {rest chars : List Char}
    (hchars : numeral.chars ++ c :: rest = first :: chars)
    (h : IsLongest IsNumeral numeral.chars (first :: chars)) (hc : isNameStart c = true) :
    lexeme first chars =
      if numeral.beginsWithPoint then ⟨numeral.kind, numeral.chars, c :: rest⟩
      else ⟨.invalid, numeral.chars ++ (c :: rest).takeWhile isNamePart,
        (c :: rest).dropWhile isNamePart⟩ := by
  have hglues : numeral.glues c = true := by
    cases numeral with
    | decimal number => exact hc
    | based integer => exact isNamePart_of_isNameStart hc
  rw [lexeme_of_numeral hchars h]
  simp [unlessGlued, hglues]

/-- A number is the longest numeral at its place, and only one that begins with its point runs into
a name. -/
theorem exists_numeral_of_isNumeric {chars : List Char}
    (h : (lexeme first chars).kind.isNumeric = true) :
    ∃ numeral : WrittenNumeral, IsLongest IsNumeral numeral.chars (first :: chars) ∧
      (lexeme first chars).kind = numeral.kind ∧ (lexeme first chars).text = numeral.chars ∧
      ∀ c rest, first :: chars = numeral.chars ++ c :: rest → isNameStart c = true →
        numeral.beginsWithPoint = true := by
  obtain ⟨numeral, hlongest⟩ := exists_longest_numeral (beginsNumber_of_isNumeric h)
  obtain ⟨rest, hrest⟩ := hlongest.leads
  have hread : lexeme first chars = ⟨numeral.kind, numeral.chars, rest⟩ := by
    have hvalid : (lexeme first chars).kind ≠ .invalid := by
      intro hinvalid
      rw [hinvalid] at h
      cases h
    rw [lexeme_of_numeral hrest hlongest] at hvalid ⊢
    split at hvalid
    · rename_i hpoint
      rw [if_pos hpoint]
    · rename_i hpoint
      rw [if_neg hpoint, unlessGlued_of_valid hvalid]
  refine ⟨numeral, hlongest, by rw [hread], by rw [hread], fun c later hlater hc => ?_⟩
  by_contra hpoint
  have hglued := lexeme_of_glued hlater.symm hlongest hc
  rw [if_neg hpoint] at hglued
  rw [hglued] at h
  cases h

end Scan

/-- For every token of a source text, let `chars` be the text from where the token starts. A numeric
token is the longest numeral that `chars` begins with, and it is followed by a character that can
begin a name only if the numeral begins with its point. Conversely, where the longest numeral is
followed by such a character, the numeral and all characters behind it that can belong to names are
one invalid token. If the numeral begins with its point, it is a number all the same, and the name
is the next token. -/
theorem TokenStream.numbers_end (source : String) :
    ∀ token ∈ (TokenStream.ofSource source).tokens, ∃ front chars,
      source.toList = front ++ chars ∧ Source.byteLength front = token.span.start ∧
      (token.kind.isNumeric = true → ∃ numeral : WrittenNumeral,
        IsLongest IsNumeral numeral.chars chars ∧ token.kind = numeral.kind ∧
        token.text = String.ofList numeral.chars ∧
        ∀ c rest, chars = numeral.chars ++ c :: rest → Text.isNameStart c = true →
          numeral.beginsWithPoint = true) ∧
      ∀ (numeral : WrittenNumeral) (c : Char) (rest : List Char),
        IsLongest IsNumeral numeral.chars chars → chars = numeral.chars ++ c :: rest →
        Text.isNameStart c = true →
        if numeral.beginsWithPoint then
          token.kind = numeral.kind ∧ token.text = String.ofList numeral.chars ∧
          ∃ next ∈ (TokenStream.ofSource source).tokens, next.span.start = token.span.stop ∧
            (next.kind = .name ∨ ∃ word, next.kind = .word word)
        else
          token.kind = .invalid ∧
          token.text = String.ofList (numeral.chars ++ (c :: rest).takeWhile Text.isNamePart) := by
  intro token htoken
  obtain ⟨front, first, chars, hsource, hstart, hkind, htext, hlater⟩ :=
    Scan.later_of_mem_scanFrom 0 source.toList [] rfl htoken
  refine ⟨front, first :: chars, hsource, hstart, ?_, ?_⟩
  · intro hnumeric
    rw [hkind] at hnumeric ⊢
    obtain ⟨numeral, hlongest, hsame, hchars, hpoint⟩ := Scan.exists_numeral_of_isNumeric hnumeric
    exact ⟨numeral, hlongest, hsame, by rw [htext, hchars], hpoint⟩
  · intro numeral c rest hlongest hchars hc
    have hread := Scan.lexeme_of_glued hchars.symm hlongest hc
    rw [hkind, htext]
    split
    · rename_i hpoint
      rw [if_pos hpoint] at hread
      rw [hread] at hlater ⊢
      obtain ⟨next, hnext, hsame, hname⟩ := Scan.name_mem_scanFrom hc token.span.stop rest
      exact ⟨rfl, rfl, next, hlater.subset hnext, hsame, hname⟩
    · rename_i hpoint
      rw [if_neg hpoint] at hread
      rw [hread]
      exact ⟨rfl, rfl⟩

/-- Both numerals here are followed by names: the first is not a number, and the second is. -/
theorem TokenStream.numbers_end_before_names :
    let tokens := (TokenStream.ofSource "3in .5a").tokens
    (⟨.invalid, "3in", ⟨0, 3⟩, false⟩ ∈ tokens ∧ IsLongest IsNumeral ['3'] "3in .5a".toList ∧
      Text.isNameStart 'i' = true ∧
      "3in" = String.ofList (['3'] ++ "in .5a".toList.takeWhile Text.isNamePart)) ∧
    (⟨.number, ".5", ⟨4, 6⟩, false⟩ ∈ tokens ∧ IsLongest IsNumeral ".5".toList ".5a".toList ∧
      Text.isNameStart 'a' = true ∧
      ∃ next ∈ tokens, next.span.start = 6 ∧
        (next.kind = .name ∨ ∃ word, next.kind = .word word)) := by
  intro tokens
  have htokens : tokens = [⟨.invalid, "3in", ⟨0, 3⟩, false⟩, ⟨.number, ".5", ⟨4, 6⟩, false⟩,
      ⟨.name, "a", ⟨6, 7⟩, false⟩] := by
    have hfirst : Scan.lexeme '3' "in .5a".toList = ⟨.invalid, "3in".toList, " .5a".toList⟩ := by
      decide
    have hsecond : Scan.lexeme '.' "5a".toList = ⟨.number, ".5".toList, ['a']⟩ := by decide
    have hthird : Scan.lexeme 'a' [] = ⟨.name, ['a'], []⟩ := by decide
    simp only [tokens, TokenStream.ofSource]
    rw [Scan.scanFrom_of_lexeme rfl hfirst, Scan.scanFrom_of_lexeme rfl hsecond,
      Scan.scanFrom_of_lexeme rfl hthird, Scan.scanFrom_nil]
    rfl
  have hglued : ⟨.invalid, "3in", ⟨0, 3⟩, false⟩ ∈ tokens := by
    rw [htokens]
    decide
  have hpoint : ⟨.number, ".5", ⟨4, 6⟩, false⟩ ∈ tokens := by
    rw [htokens]
    decide
  -- Where a token starts says which text is before it.
  have hplace (before after : List Char) {front chars : List Char}
      (hsource : "3in .5a".toList = front ++ chars)
      (hsame : "3in .5a".toList = before ++ after)
      (hlength : Source.byteLength front = Source.byteLength before) : chars = after := by
    have hsplit := Source.splitExactly?_append front chars
    rw [← hsource, hlength, hsame, Source.splitExactly?_append] at hsplit
    exact (congrArg Prod.snd (Option.some.inj hsplit)).symm
  constructor
  · obtain ⟨front, chars, hsource, hstart, -, hend⟩ := numbers_end "3in .5a" _ hglued
    obtain rfl : chars = "3in .5a".toList := hplace [] _ hsource rfl hstart
    let three : WrittenNumber :=
      ⟨⟨['3'], List.forall_mem_singleton.mpr rfl⟩, none, none, .inl (List.cons_ne_nil _ _)⟩
    have hlongest : IsLongest IsNumeral ['3'] "3in .5a".toList := by
      refine ⟨⟨.decimal three, rfl⟩, by decide, ?_⟩
      rintro _ ⟨numeral, rfl⟩ ⟨after, hafter⟩
      cases numeral with
      | decimal number =>
        have hsplit := Scan.leads_splitNumber number after
        rw [show number.chars ++ after = "3in .5a".toList from hafter] at hsplit
        exact hsplit.length_le
      | based integer => cases hafter
    have hread := hend (.decimal three) 'i' "n .5a".toList hlongest rfl (by decide)
    exact ⟨hglued, hlongest, by decide, hread.2⟩
  · obtain ⟨front, chars, hsource, hstart, hnumber, hend⟩ := numbers_end "3in .5a" _ hpoint
    obtain rfl : chars = ".5a".toList := hplace "3in ".toList _ hsource rfl hstart
    obtain ⟨numeral, hlongest, -, htext, -⟩ := hnumber rfl
    have hchars : ".5".toList = numeral.chars :=
      (congrArg String.toList htext).trans String.toList_ofList
    have hread := hend numeral 'a' [] hlongest (by rw [← hchars]; rfl) (by decide)
    rw [if_pos (by rw [WrittenNumeral.beginsWithPoint, ← hchars]; rfl)] at hread
    exact ⟨hpoint, hchars ▸ hlongest, by decide, hread.2.2⟩

/-- A number that begins with its point runs into a name. -/
theorem TokenStream.point_number_before_name :
    (TokenStream.ofSource ".5a").tokens =
        [⟨.number, ".5", ⟨0, 2⟩, false⟩, ⟨.name, "a", ⟨2, 3⟩, false⟩] ∧
      Text.isNameStart 'a' = true := by
  have hfirst : Scan.lexeme '.' "5a".toList = ⟨.number, ".5".toList, ['a']⟩ := by decide
  have hsecond : Scan.lexeme 'a' [] = ⟨.name, ['a'], []⟩ := by decide
  constructor
  · rw [TokenStream.ofSource, Scan.scanFrom_of_lexeme rfl hfirst,
      Scan.scanFrom_of_lexeme rfl hsecond, Scan.scanFrom_nil]
    rfl
  · decide

end TreeScript
