import Mathlib.Data.Nat.Digits.Defs
import TreeScript.Proofs.Token.LongestMatch

/-!
# Numerals

A numeral is a run of digits, a run of digits with a point and any digits after it, or a point with
digits after it, and it may end with an exponent. The main statements: the texts that are read as
one number token are the numerals, and the texts that are read as decimals are the numerals with an
optional sign in front. The two readers share nothing. One splits a text to find where a number
ends and the other to find its value, and both split numerals where the parts of a numeral meet.
-/

namespace TreeScript

variable {after : List Char}

/-! ## The parts of a numeral -/

/-- A run of digits, which may be empty. -/
structure DigitRun where
  chars : List Char
  isDigit : ∀ c ∈ chars, c.isDigit = true

namespace DigitRun

/-- The number that the digits denote, the last one counting least. -/
def value (digits : DigitRun) : Nat :=
  Nat.ofDigits 10 (digits.chars.reverse.map fun c => c.toNat - '0'.toNat)

/-- Two runs in a row. -/
def append (first second : DigitRun) : DigitRun where
  chars := first.chars ++ second.chars
  isDigit c hc := (List.mem_append.mp hc).elim (first.isDigit c) (second.isDigit c)

/-- The digits that characters begin with. -/
def ofFront (chars : List Char) : DigitRun where
  chars := chars.takeWhile Char.isDigit
  isDigit _ := List.mem_takeWhile_imp

/-- Digits are read as their value. -/
theorem ofDigits_chars (digits : DigitRun) : Decimal.ofDigits digits.chars = digits.value := by
  rw [Decimal.ofDigits, List.foldl_eq_foldr_reverse, value, Nat.ofDigits_eq_foldr, List.foldr_map]
  simp only [Nat.cast_id, Nat.add_comm]

/-- Digits in a row have the value of both. -/
theorem value_append (first second : DigitRun) :
    (first.append second).value = first.value * 10 ^ second.chars.length + second.value := by
  simp only [value, append, List.reverse_append, List.map_append, Nat.ofDigits_append,
    List.length_map, List.length_reverse]
  rw [Nat.add_comm, Nat.mul_comm]

/-- Digits stop what takes none. -/
theorem stops (digits : DigitRun) {test : Char → Bool}
    (h : ∀ c, c.isDigit = true → test c = false) : Scan.Stops test digits.chars :=
  fun c hc => h c (digits.isDigit c (List.mem_of_mem_head? hc))

end DigitRun

/-- A sign as it is written, if at all. -/
inductive WrittenSign where
  | absent
  | plus
  | minus
deriving DecidableEq, Repr

namespace WrittenSign

def chars : WrittenSign → List Char
  | absent => []
  | plus => ['+']
  | minus => ['-']

def isNegative : WrittenSign → Bool
  | minus => true
  | absent | plus => false

/-- A number with the sign in front of it. -/
def apply (sign : WrittenSign) (number : Nat) : Int :=
  if sign.isNegative then -(number : Int) else number

end WrittenSign

/-- An exponent as it is written: a mark, an optional sign and at least one digit. -/
structure ExponentPart where
  mark : Char
  sign : WrittenSign
  digits : DigitRun
  isMark : Scan.isExponentMark mark = true
  nonempty : digits.chars ≠ []

namespace ExponentPart

def chars (part : ExponentPart) : List Char := part.mark :: (part.sign.chars ++ part.digits.chars)

def value (part : ExponentPart) : Int := part.sign.apply part.digits.value

end ExponentPart

/-- A numeral as it is written: digits, digits with a point and any digits after it, or a point
with digits after it, and an optional exponent. There is no fraction where there is no point. -/
structure WrittenNumber where
  whole : DigitRun
  fraction? : Option DigitRun
  exponent? : Option ExponentPart
  nonempty : whole.chars ≠ [] ∨ ∃ fraction ∈ fraction?, fraction.chars ≠ []

namespace WrittenNumber

/-- A point and the digits after it. -/
def fractionChars (fraction? : Option DigitRun) : List Char :=
  fraction?.elim [] fun fraction => '.' :: fraction.chars

/-- The digits after the point. -/
def fractionDigits (fraction? : Option DigitRun) : DigitRun :=
  fraction?.getD ⟨[], fun _ hc => absurd hc List.not_mem_nil⟩

def exponentChars (exponent? : Option ExponentPart) : List Char :=
  exponent?.elim [] ExponentPart.chars

def exponentValue (exponent? : Option ExponentPart) : Int := exponent?.elim 0 ExponentPart.value

/-- The characters of a numeral. -/
def chars (number : WrittenNumber) : List Char :=
  number.whole.chars ++ (fractionChars number.fraction? ++ exponentChars number.exponent?)

/-- The text of a numeral. -/
def text (number : WrittenNumber) : String := String.ofList number.chars

/-- The decimal that a numeral denotes after a sign: all its digits, moved by the exponent and by
the number of digits after the point. -/
def decimal (number : WrittenNumber) (sign : WrittenSign) : Decimal :=
  ⟨sign.isNegative, (number.whole.append (fractionDigits number.fraction?)).value,
    exponentValue number.exponent? - (fractionDigits number.fraction?).chars.length⟩

/-- A numeral without point and exponent. -/
def IsWhole (number : WrittenNumber) : Prop := number.fraction? = none ∧ number.exponent? = none

instance (number : WrittenNumber) : Decidable number.IsWhole :=
  inferInstanceAs (Decidable (number.fraction? = none ∧ number.exponent? = none))

variable {test : Char → Bool}

/-- A fraction begins with its point. -/
theorem stops_fractionChars (h : test '.' = false) (fraction? : Option DigitRun) :
    Scan.Stops test (fractionChars fraction?) := by
  cases fraction? with
  | none => exact Scan.stops_iff.mpr rfl
  | some fraction => exact Scan.stops_cons h _

/-- An exponent begins with its mark. -/
theorem stops_exponentChars (he : test 'e' = false) (hE : test 'E' = false)
    (exponent? : Option ExponentPart) : Scan.Stops test (exponentChars exponent?) := by
  cases exponent? with
  | none => exact Scan.stops_iff.mpr rfl
  | some part =>
    refine Scan.stops_cons ?_ _
    have hmark := part.isMark
    simp only [Scan.isExponentMark, Bool.or_eq_true, beq_iff_eq] at hmark
    rcases hmark with hmark | hmark <;> rw [hmark] <;> assumption

/-- What follows the first digits begins with a point or with the mark of an exponent. -/
theorem stops_afterWhole (hpoint : test '.' = false) (he : test 'e' = false) (hE : test 'E' = false)
    (fraction? : Option DigitRun) (exponent? : Option ExponentPart) :
    Scan.Stops test (fractionChars fraction? ++ exponentChars exponent?) :=
  (stops_fractionChars hpoint _).append (stops_exponentChars he hE _)

/-- The digits are taken. -/
theorem takeWhile_whole (whole : DigitRun) (fraction? : Option DigitRun)
    (exponent? : Option ExponentPart) :
    (whole.chars ++ (fractionChars fraction? ++ exponentChars exponent?)).takeWhile Char.isDigit =
      whole.chars :=
  Scan.takeWhile_append_of_stops whole.isDigit (stops_afterWhole rfl rfl rfl _ _)

/-- The rest is left. -/
theorem dropWhile_whole (whole : DigitRun) (fraction? : Option DigitRun)
    (exponent? : Option ExponentPart) :
    (whole.chars ++ (fractionChars fraction? ++ exponentChars exponent?)).dropWhile Char.isDigit =
      fractionChars fraction? ++ exponentChars exponent? :=
  Scan.dropWhile_append_of_stops whole.isDigit (stops_afterWhole rfl rfl rfl _ _)

/-- There are digits before or after the point. -/
theorem isEmpty_digits_eq_false_iff {whole : DigitRun} {fraction? : Option DigitRun} :
    (whole.chars.isEmpty && (fractionDigits fraction?).chars.isEmpty) = false ↔
      whole.chars ≠ [] ∨ ∃ fraction ∈ fraction?, fraction.chars ≠ [] := by
  rw [Bool.and_eq_false_iff, List.isEmpty_eq_false_iff, List.isEmpty_eq_false_iff]
  cases fraction? with
  | none => simp [fractionDigits]
  | some fraction => simp [fractionDigits]

/-- A numeral of digits alone has no point and no exponent. -/
theorem isWhole_of_isDigit {number : WrittenNumber} (h : ∀ c ∈ number.chars, c.isDigit = true) :
    number.IsWhole := by
  obtain ⟨whole, fraction?, exponent?, hnonempty⟩ := number
  simp only [chars, List.mem_append] at h
  constructor
  · cases fraction? with
    | none => rfl
    | some fraction => exact absurd (h '.' (.inr (.inl List.mem_cons_self))) (by decide)
  · cases exponent? with
    | none => rfl
    | some part =>
      have hdigit := h part.mark (.inr (.inr List.mem_cons_self))
      have hmark := part.isMark
      simp only [Scan.isExponentMark, Bool.or_eq_true, beq_iff_eq] at hmark
      rcases hmark with hmark | hmark <;> rw [hmark] at hdigit <;> cases hdigit

/-- A numeral begins with a digit or with its point. -/
theorem exists_first (number : WrittenNumber) :
    ∃ first chars, number.chars = first :: chars ∧ (first.isDigit = true ∨ first = '.') := by
  obtain ⟨⟨whole, hwhole⟩, fraction?, exponent?, hnonempty⟩ := number
  cases whole with
  | cons digit digits => exact ⟨_, _, rfl, .inl (hwhole digit List.mem_cons_self)⟩
  | nil =>
    obtain ⟨fraction, hfraction, -⟩ := hnonempty.resolve_left fun hne => hne rfl
    obtain rfl : fraction? = some fraction := hfraction
    exact ⟨_, _, rfl, .inr rfl⟩

end WrittenNumber

/-! ## Decimals -/

namespace Decimal

open WrittenNumber

/-- A written sign is split off. -/
theorem splitSign_append (sign : WrittenSign) {chars : List Char}
    (h : Scan.Stops Scan.isExponentSign chars) :
    splitSign (sign.chars ++ chars) = (sign.isNegative, chars) := by
  cases sign with
  | plus | minus => rfl
  | absent =>
    change splitSign chars = (false, chars)
    fun_cases splitSign chars with
    | case1 rest => exact absurd (h '-' rfl) (by decide)
    | case2 rest => exact absurd (h '+' rfl) (by decide)
    | case3 => rfl

/-- What is split off is a written sign. -/
theorem exists_splitSign (chars : List Char) :
    ∃ sign : WrittenSign, chars = sign.chars ++ (splitSign chars).2 ∧
      (splitSign chars).1 = sign.isNegative := by
  fun_cases splitSign chars with
  | case1 rest => exact ⟨.minus, rfl, rfl⟩
  | case2 rest => exact ⟨.plus, rfl, rfl⟩
  | case3 => exact ⟨.absent, rfl, rfl⟩

/-- Integers are runs of digits that are not empty, after an optional sign. -/
theorem readInteger?_eq_some_iff {text : String} {value : Int} :
    readInteger? text = some value ↔ ∃ (sign : WrittenSign) (digits : DigitRun),
      digits.chars ≠ [] ∧ text.toList = sign.chars ++ digits.chars ∧
        value = sign.apply digits.value := by
  simp only [readInteger?]
  constructor
  · intro h
    obtain ⟨sign, htext, hsign⟩ := exists_splitSign text.toList
    obtain ⟨hdigits, hvalue⟩ := Option.ite_none_right_eq_some.mp h
    simp only [Bool.and_eq_true, Bool.not_eq_true', List.isEmpty_eq_false_iff,
      List.all_eq_true] at hdigits
    let digits : DigitRun := ⟨(splitSign text.toList).2, hdigits.2⟩
    refine ⟨sign, digits, hdigits.1, htext, ?_⟩
    rw [← Option.some.inj hvalue, WrittenSign.apply, ← hsign, ← digits.ofDigits_chars]
  · rintro ⟨sign, digits, hnonempty, htext, rfl⟩
    have hsplit : splitSign text.toList = (sign.isNegative, digits.chars) := by
      rw [htext]
      exact splitSign_append sign (digits.stops fun _ => Scan.isExponentSign_of_isDigit)
    have hdigits : (!digits.chars.isEmpty && digits.chars.all Char.isDigit) = true := by
      simp only [Bool.and_eq_true, Bool.not_eq_true', List.isEmpty_eq_false_iff, List.all_eq_true]
      exact ⟨hnonempty, digits.isDigit⟩
    rw [hsplit, if_pos hdigits, digits.ofDigits_chars]
    rfl

/-- The texts that are read as exponents. -/
theorem readExponent?_eq_some_iff {chars : List Char} {value : Int} :
    readExponent? chars = some value ↔ ∃ exponent? : Option ExponentPart,
      chars = exponentChars exponent? ∧ value = exponentValue exponent? := by
  constructor
  · intro h
    cases chars with
    | nil => exact ⟨none, rfl, (Option.some.inj h).symm⟩
    | cons mark rest =>
      obtain ⟨hmark, hread⟩ := Option.ite_none_right_eq_some.mp h
      obtain ⟨sign, digits, hnonempty, hrest, hvalue⟩ := readInteger?_eq_some_iff.mp hread
      rw [String.toList_ofList] at hrest
      refine ⟨some ⟨mark, sign, digits, hmark, hnonempty⟩, ?_, hvalue⟩
      rw [hrest]
      rfl
  · rintro ⟨exponent?, rfl, rfl⟩
    cases exponent? with
    | none => rfl
    | some part =>
      change (if Scan.isExponentMark part.mark then _ else _) = _
      rw [if_pos part.isMark, readInteger?_eq_some_iff]
      exact ⟨part.sign, part.digits, part.nonempty, String.toList_ofList, rfl⟩

/-- A written fraction is split off. -/
theorem splitFraction_append (fraction? : Option DigitRun) (hdigit : Scan.Stops Char.isDigit after)
    (hpoint : Scan.Stops (· == '.') after) :
    splitFraction (fractionChars fraction? ++ after) =
      ((fractionDigits fraction?).chars, after) := by
  cases fraction? with
  | none =>
    change splitFraction after = ([], after)
    fun_cases splitFraction after with
    | case1 rest => exact absurd (hpoint '.' rfl) (by decide)
    | case2 => rfl
  | some fraction =>
    change ((fraction.chars ++ after).takeWhile _, (fraction.chars ++ after).dropWhile _) = _
    rw [Scan.takeWhile_append_of_stops fraction.isDigit hdigit,
      Scan.dropWhile_append_of_stops fraction.isDigit hdigit]
    rfl

/-- What is split off is a written fraction. -/
theorem exists_splitFraction (chars : List Char) :
    ∃ fraction? : Option DigitRun, chars = fractionChars fraction? ++ (splitFraction chars).2 ∧
      (splitFraction chars).1 = (fractionDigits fraction?).chars := by
  fun_cases splitFraction chars with
  | case1 rest =>
    refine ⟨some (.ofFront rest), ?_, rfl⟩
    change '.' :: rest = '.' :: (rest.takeWhile Char.isDigit ++ rest.dropWhile Char.isDigit)
    rw [List.takeWhile_append_dropWhile]
  | case2 => exact ⟨none, rfl, rfl⟩

/-- A decimal is read part by part. -/
theorem read?_eq (text : String) : read? text =
    let chars := (splitSign text.toList).2
    let parts := splitFraction (chars.dropWhile Char.isDigit)
    (readExponent? parts.2).bind fun exponent =>
      if (chars.takeWhile Char.isDigit).isEmpty && parts.1.isEmpty then none
      else some ⟨(splitSign text.toList).1, ofDigits (chars.takeWhile Char.isDigit ++ parts.1),
        exponent - parts.1.length⟩ := rfl

/-- Decimals are numerals after an optional sign, and each is read as what it denotes. -/
theorem read?_eq_some_iff {text : String} {decimal : Decimal} :
    read? text = some decimal ↔ ∃ (sign : WrittenSign) (number : WrittenNumber),
      text.toList = sign.chars ++ number.chars ∧ decimal = number.decimal sign := by
  rw [read?_eq]
  constructor
  · intro h
    obtain ⟨sign, htext, hsign⟩ := exists_splitSign text.toList
    rw [hsign] at h
    generalize (splitSign text.toList).2 = chars at h htext
    obtain ⟨fraction?, hrest, hfraction⟩ := exists_splitFraction (chars.dropWhile Char.isDigit)
    obtain ⟨value, hvalue, h⟩ := Option.bind_eq_some_iff.mp h
    obtain ⟨exponent?, hexponent, rfl⟩ := readExponent?_eq_some_iff.mp hvalue
    obtain ⟨hdigits, hdecimal⟩ := Option.ite_none_left_eq_some.mp h
    rw [hfraction] at hdigits hdecimal
    have hnonempty : (DigitRun.ofFront chars).chars ≠ [] ∨
        ∃ fraction ∈ fraction?, fraction.chars ≠ [] :=
      isEmpty_digits_eq_false_iff.mp (Bool.eq_false_iff.mpr hdigits)
    refine ⟨sign, ⟨.ofFront chars, fraction?, exponent?, hnonempty⟩, ?_, ?_⟩
    · rw [htext, WrittenNumber.chars, ← hexponent, ← hrest]
      exact congrArg _ List.takeWhile_append_dropWhile.symm
    · rw [← Option.some.inj hdecimal, WrittenNumber.decimal, ← DigitRun.ofDigits_chars]
      rfl
  · rintro ⟨sign, number, htext, rfl⟩
    have hsplit : splitSign text.toList = (sign.isNegative, number.chars) := by
      rw [htext]
      refine splitSign_append sign (Scan.Stops.append ?_ (stops_afterWhole rfl rfl rfl _ _))
      exact number.whole.stops fun _ => Scan.isExponentSign_of_isDigit
    have hfraction : splitFraction (number.chars.dropWhile Char.isDigit) =
        ((fractionDigits number.fraction?).chars, exponentChars number.exponent?) := by
      rw [WrittenNumber.chars, dropWhile_whole]
      exact splitFraction_append _ (stops_exponentChars rfl rfl _) (stops_exponentChars rfl rfl _)
    have hexponent : readExponent? (exponentChars number.exponent?) =
        some (exponentValue number.exponent?) := readExponent?_eq_some_iff.mpr ⟨_, rfl, rfl⟩
    have hwhole : number.chars.takeWhile Char.isDigit = number.whole.chars := takeWhile_whole _ _ _
    have hdigits := isEmpty_digits_eq_false_iff.mpr number.nonempty
    simp only [hsplit, hfraction, hexponent, hwhole, hdigits, Option.bind_some, Bool.false_eq_true,
      if_false, WrittenNumber.decimal, ← DigitRun.ofDigits_chars]
    rfl

/-- A numeral is read as an integer exactly if it has no point and no exponent. -/
theorem readInteger?_text (number : WrittenNumber) :
    readInteger? number.text =
      if number.IsWhole then some (number.whole.value : Int) else none := by
  have htext : number.text.toList = number.chars := String.toList_ofList
  split
  case isTrue hwhole =>
    obtain ⟨whole, fraction?, exponent?, hnonempty⟩ := number
    obtain ⟨rfl, rfl⟩ : fraction? = none ∧ exponent? = none := hwhole
    have hdigits : whole.chars ≠ [] := hnonempty.resolve_right (by simp)
    refine readInteger?_eq_some_iff.mpr ⟨.absent, whole, hdigits, ?_, rfl⟩
    rw [htext]
    exact List.append_nil _
  case isFalse hparts =>
    rw [Option.eq_none_iff_forall_ne_some]
    intro value hvalue
    obtain ⟨sign, digits, -, hchars, -⟩ := readInteger?_eq_some_iff.mp hvalue
    rw [htext] at hchars
    -- Behind a sign all would be digits, but a point or the mark of an exponent is none.
    obtain ⟨first, chars, hfirst, hbegins⟩ := number.exists_first
    obtain rfl : sign = .absent := by
      cases sign with
      | absent => rfl
      | plus | minus =>
        obtain ⟨rfl, -⟩ := List.cons.inj (hfirst.symm.trans hchars)
        rcases hbegins with h | h <;> cases h
    replace hchars : number.chars = digits.chars := hchars
    exact hparts (isWhole_of_isDigit (hchars ▸ digits.isDigit))

end Decimal

/-! ## Number tokens -/

namespace Scan

open WrittenNumber

variable {first : Char}

/-- A written fraction is split off a token. -/
theorem splitFraction_append_of_stops (fraction? : Option DigitRun)
    (hdigit : Stops Char.isDigit after) (hpoint : Stops (· == '.') after) :
    splitFraction (fractionChars fraction? ++ after) = (fractionChars fraction?, after) := by
  cases fraction? with
  | none =>
    change splitFraction after = ([], after)
    fun_cases splitFraction after with
    | case1 rest => exact absurd (hpoint '.' rfl) (by decide)
    | case2 => rfl
  | some fraction =>
    change ('.' :: (fraction.chars ++ after).takeWhile _, (fraction.chars ++ after).dropWhile _) = _
    rw [takeWhile_append_of_stops fraction.isDigit hdigit,
      dropWhile_append_of_stops fraction.isDigit hdigit]
    rfl

/-- A written sign is split off a token. -/
theorem splitSign_append_of_stops (sign : WrittenSign) (h : Stops isExponentSign after) :
    splitSign (sign.chars ++ after) = (sign.chars, after) := by
  cases sign with
  | plus | minus => rfl
  | absent =>
    change splitSign after = ([], after)
    cases after with
    | nil => rfl
    | cons c after =>
      have hc : (c == '+' || c == '-') = false := h c rfl
      simp [splitSign, hc]

/-- A written exponent is split off whole. -/
theorem splitExponent_exponentChars (exponent? : Option ExponentPart) :
    splitExponent (exponentChars exponent?) = (exponentChars exponent?, []) := by
  cases exponent? with
  | none => rfl
  | some part =>
    have hdigits : (!part.digits.chars.isEmpty) = true := by
      rw [Bool.not_eq_true', List.isEmpty_eq_false_iff]
      exact part.nonempty
    change splitExponent (part.mark :: (part.sign.chars ++ part.digits.chars)) = _
    rw [splitExponent_cons,
      splitSign_append_of_stops _ (part.digits.stops fun _ => isExponentSign_of_isDigit)]
    simp only [List.takeWhile_eq_self_iff.mpr part.digits.isDigit,
      List.dropWhile_eq_nil_iff.mpr part.digits.isDigit, part.isMark, hdigits, Bool.and_self,
      if_true]
    rfl

/-- No digit announces a radix. -/
theorem radixOfLetter?_of_isDigit {c : Char} (h : c.isDigit = true) : radixOfLetter? c = none := by
  simp only [radixOfLetter?, Bool.or_eq_true, beq_iff_eq]
  rw [if_neg, if_neg, if_neg]
  all_goals rintro (rfl | rfl) <;> cases h

/-- Without the letter of a base, a number is in decimal notation. -/
theorem number_eq_decimalNumber {chars : List Char}
    (h : Stops (fun c => (radixOfLetter? c).isSome) chars) :
    number first chars = decimalNumber first chars := by
  fun_cases number first chars with
  | case1 letter rest radix hradix =>
    have hletter := h letter rfl
    rw [Option.isSome_eq_false_iff, Option.isNone_iff_eq_none] at hletter
    rw [hletter, ite_self] at hradix
    cases hradix
  | case2 => rfl
  | case3 => rfl

/-- A digit begins a number. -/
theorem lexeme_of_isDigit (h : first.isDigit = true) (chars : List Char) :
    lexeme first chars = number first chars := by
  have hquote : ¬ (first == '"' || first == '\'') = true := by
    rw [Bool.or_eq_true, beq_iff_eq, beq_iff_eq]
    rintro (rfl | rfl) <;> cases h
  rw [lexeme_eq, if_neg hquote, if_pos h]

/-- A written number is split off whole. -/
theorem splitNumber_whole (whole : DigitRun) (fraction? : Option DigitRun)
    (exponent? : Option ExponentPart) :
    splitNumber (whole.chars ++ (fractionChars fraction? ++ exponentChars exponent?)) =
      (whole.chars ++ (fractionChars fraction? ++ exponentChars exponent?), []) := by
  have hfraction := splitFraction_append_of_stops fraction? (stops_exponentChars rfl rfl exponent?)
    (stops_exponentChars rfl rfl exponent?)
  simp only [splitNumber, takeWhile_whole, dropWhile_whole, hfraction, splitExponent_exponentChars]

/-- A digit or a point begins a token. -/
theorem startsToken_of_first (h : first.isDigit = true ∨ first = '.') (chars : List Char) :
    StartsToken (first :: chars) := by
  have hne {c : Char} (hdigit : c.isDigit = false) (hpoint : c ≠ '.') : first ≠ c := by
    rintro rfl
    rcases h with h | h
    · rw [h] at hdigit
      cases hdigit
    · exact hpoint h
  rw [startsToken_cons_iff, isBlank, isLineBreak, isLineFeed]
  simp only [Bool.or_eq_false_iff, beq_eq_false_iff_ne]
  refine ⟨⟨⟨hne rfl ?_, hne rfl ?_⟩, hne rfl ?_⟩,
    ⟨⟨⟨hne rfl ?_, hne rfl ?_⟩, hne rfl ?_⟩, hne rfl ?_⟩,
    fun hslash => absurd hslash (hne rfl ?_)⟩ <;> decide

/-- A numeral is read as one number. -/
theorem lexeme_chars (written : WrittenNumber) {chars : List Char}
    (h : written.chars = first :: chars) :
    lexeme first chars = ⟨.number, first :: chars, []⟩ := by
  obtain ⟨⟨whole, hwhole⟩, fraction?, exponent?, hnonempty⟩ := written
  cases whole with
  | cons digit digits =>
    let rest : DigitRun := ⟨digits, fun c hc => hwhole c (List.mem_cons_of_mem _ hc)⟩
    have hfirst : digit.isDigit = true := hwhole digit List.mem_cons_self
    have hradix : Stops (fun c => (radixOfLetter? c).isSome)
        (rest.chars ++ (fractionChars fraction? ++ exponentChars exponent?)) := by
      refine (rest.stops fun c hc => ?_).append (stops_afterWhole rfl rfl rfl _ _)
      rw [radixOfLetter?_of_isDigit hc]
      rfl
    have hsplit := splitNumber_whole rest fraction? exponent?
    obtain ⟨rfl, htail⟩ := List.cons.inj h
    change rest.chars ++ (fractionChars fraction? ++ exponentChars exponent?) = chars at htail
    rw [htail] at hradix hsplit
    rw [lexeme_of_isDigit hfirst, number_eq_decimalNumber hradix, decimalNumber_eq, hsplit]
    exact unlessGlued_eq (stops_iff.mpr rfl) _ _
  | nil =>
    obtain ⟨fraction, hfraction, hdigits⟩ := hnonempty.resolve_left fun hne => hne rfl
    obtain rfl : fraction? = some fraction := hfraction
    obtain ⟨rfl, rfl⟩ := List.cons.inj h
    change lexeme '.' (fraction.chars ++ exponentChars exponent?) = _
    have hpoint : BeginsFraction ('.' :: (fraction.chars ++ exponentChars exponent?)) := by
      obtain ⟨digit, digits, hrun⟩ := List.exists_cons_of_ne_nil hdigits
      refine ⟨digit, digits ++ exponentChars exponent?, by rw [hrun]; rfl, ?_⟩
      exact fraction.isDigit digit (hrun ▸ List.mem_cons_self)
    have hstop : Stops Char.isDigit (exponentChars exponent?) := stops_exponentChars rfl rfl _
    rw [lexeme_of_beginsFraction hpoint]
    simp only [pointNumber, takeWhile_append_of_stops fraction.isDigit hstop,
      dropWhile_append_of_stops fraction.isDigit hstop, splitExponent_exponentChars]
    rfl

end Scan

/-- The texts that are read as one number are the numerals. -/
theorem spells_number_iff {text : String} :
    Spells text .number ↔ ∃ number : WrittenNumber, text = number.text := by
  constructor
  · intro h
    obtain ⟨decimal, hread⟩ := Option.isSome_iff_exists.mp h.holds
    obtain ⟨sign, number, htext, -⟩ := Decimal.read?_eq_some_iff.mp hread
    obtain ⟨first, chars, hchars, -, hlexeme⟩ := Scan.spells_iff.mp h
    have hkind : (Scan.lexeme first chars).kind = .number := by rw [hlexeme]
    -- A sign in front would be a token of its own.
    have hunsigned : Scan.lexeme first chars ≠ Scan.markOrInvalid first chars := by
      intro hmark
      rw [hmark, Scan.markOrInvalid] at hkind
      split at hkind <;> cases hkind
    cases sign with
    | absent => exact ⟨number, String.toList_inj.mp (htext.trans String.toList_ofList.symm)⟩
    | plus | minus =>
      obtain ⟨rfl, rfl⟩ := List.cons.inj (hchars.symm.trans htext)
      exact absurd (Scan.lexeme_eq _ _) hunsigned
  · rintro ⟨number, rfl⟩
    obtain ⟨first, chars, hchars, hfirst⟩ := number.exists_first
    rw [Scan.spells_iff, WrittenNumber.text, String.toList_ofList]
    exact ⟨first, chars, hchars, Scan.startsToken_of_first hfirst chars,
      Scan.lexeme_chars number hchars⟩

end TreeScript
