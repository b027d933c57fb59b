import TreeScript.Decimal.Reading
import TreeScript.Proofs.Token.Spelling

/-!
# What the texts of tokens hold

The kind of a token says what its text holds: punctuators and reserved words are spelled in one
way, a quoted text stands between two equal quotes, and a number in decimal notation denotes a
decimal. The last is the only one with an argument: the readers of numbers and of decimals split
the same characters at the same places, once to find where a number ends and once for its value.
-/

namespace TreeScript

/-- What a text must hold to be a token of a kind. -/
def Kind.Holds : Kind → String → Prop
  | .mark sign, text => text = sign.spelling
  | .word reserved, text => text = reserved.spelling
  | .string, text => ∃ quote content, (quote = '"' ∨ quote = '\'') ∧
      text = String.ofList (quote :: content ++ [quote])
  | .number, text => (Decimal.read? text).isSome
  | _, _ => True

namespace Scan

variable {chars : List Char} {first : Char}

/-! ## Decimals -/

/-- Both readers split signs alike. -/
theorem splitSign_snd (chars : List Char) :
    (Decimal.splitSign chars).2 = (Scan.splitSign chars).2 := by
  fun_cases Decimal.splitSign chars with
  | case1 rest => rfl
  | case2 rest => rfl
  | case3 chars hminus hplus =>
    cases chars with
    | nil => rfl
    | cons c rest =>
      have hsign : ¬ (c == '+' || c == '-') = true := by
        simp only [Bool.or_eq_true, beq_iff_eq, not_or]
        exact ⟨fun h => hplus rest (by rw [h]), fun h => hminus rest (by rw [h])⟩
      simp [Scan.splitSign, hsign]

/-- Both readers split fractions alike. -/
theorem splitFraction_snd (chars : List Char) :
    (Decimal.splitFraction chars).2 = (Scan.splitFraction chars).2 := by
  fun_cases Scan.splitFraction chars with
  | case1 rest => rfl
  | case2 chars hpoint => rw [Decimal.splitFraction.eq_2 chars hpoint]

/-- An exponent that leaves nothing over denotes an integer. -/
theorem isSome_readExponent? (h : (splitExponent chars).2 = []) :
    (Decimal.readExponent? chars).isSome := by
  cases chars with
  | nil => rfl
  | cons c rest =>
    rw [splitExponent_cons] at h
    dsimp only at h
    split at h
    · rename_i hexponent
      obtain ⟨hmark, hdigits⟩ := Bool.and_eq_true_iff.mp hexponent
      have hall : (Scan.splitSign rest).2.all Char.isDigit = true :=
        List.all_eq_true.mpr (List.dropWhile_eq_nil_iff.mp h)
      have hsome : (Scan.splitSign rest).2.isEmpty = false := by
        cases htail : (Scan.splitSign rest).2 with
        | nil => simp [htail] at hdigits
        | cons d tail => rfl
      change (if isExponentMark c then _ else _ : Option Int).isSome
      rw [← splitSign_snd] at hall hsome
      simp [hmark, Decimal.readInteger?, hall, hsome]
    · cases h

/-- Digits with a fraction and an exponent that leave nothing over denote a decimal. -/
theorem isSome_read? {text : String} (chars : List Char)
    (hsign : (Decimal.splitSign text.toList).2 = chars)
    (hrest : (splitExponent (splitFraction (chars.dropWhile Char.isDigit)).2).2 = [])
    (hdigits : ((chars.takeWhile Char.isDigit).isEmpty &&
      (Decimal.splitFraction (chars.dropWhile Char.isDigit)).1.isEmpty) = false) :
    (Decimal.read? text).isSome := by
  rw [← splitFraction_snd] at hrest
  obtain ⟨exponent, hexponent⟩ := Option.isSome_iff_exists.mp (isSome_readExponent? hrest)
  subst hsign
  simp only [Decimal.read?, hexponent, hdigits, Option.bind_eq_bind, Option.bind_some,
    Bool.false_eq_true, if_false, Option.isSome_some]

/-- A token that begins with a digit can be read. -/
theorem isSome_read?_of_isDigit (hfirst : first.isDigit = true)
    (hrest : (splitNumber chars).2 = []) :
    (Decimal.read? (String.ofList (first :: chars))).isSome := by
  have hsign : (Decimal.splitSign (first :: chars)).2 = first :: chars := by
    have hnone : ¬ (first == '+' || first == '-') = true :=
      Bool.not_eq_true _ ▸ isExponentSign_of_isDigit hfirst
    rw [splitSign_snd, Scan.splitSign, if_neg hnone]
  refine isSome_read? (first :: chars) (by rw [String.toList_ofList, hsign]) ?_ ?_
  · rw [List.dropWhile_cons_of_pos hfirst]
    exact hrest
  · rw [List.takeWhile_cons_of_pos hfirst]
    rfl

/-- So can one that begins with a point. -/
theorem isSome_read?_of_point (hdigit : (chars.takeWhile Char.isDigit) ≠ [])
    (hrest : (splitExponent (chars.dropWhile Char.isDigit)).2 = []) :
    (Decimal.read? (String.ofList ('.' :: chars))).isSome := by
  refine isSome_read? ('.' :: chars) (by rw [String.toList_ofList]; rfl) hrest ?_
  change (true && (chars.takeWhile Char.isDigit).isEmpty) = false
  simpa using hdigit

/-! ## Readers -/

/-- A reader that leaves nothing over has read what the kind of its token says. -/
def Lexeme.Holds (read : Lexeme) : Prop :=
  read.rest = [] → read.kind.Holds (String.ofList read.text)

/-- A decimal number can be read. -/
theorem holds_decimalNumber (hfirst : first.isDigit = true) (chars : List Char) :
    (decimalNumber first chars).Holds := by
  intro hrest
  have htext : (decimalNumber first chars).text = first :: chars := by
    have happend := decimalNumber_append first chars
    rwa [hrest, List.append_nil] at happend
  rw [htext]
  by_cases hkind : (decimalNumber first chars).kind = .invalid
  · rw [hkind]
    trivial
  · have hread : decimalNumber first chars =
        ⟨.number, first :: (splitNumber chars).1, (splitNumber chars).2⟩ := by
      rw [decimalNumber_eq] at hkind ⊢
      exact unlessGlued_of_valid hkind
    rw [hread] at hrest ⊢
    exact isSome_read?_of_isDigit hfirst hrest

/-- Nothing is asked of a number with a radix. -/
theorem holds_radixNumber (radix : Radix) (lead chars : List Char) :
    (radixNumber radix lead chars).Holds := by
  intro _
  unfold radixNumber unlessGlued
  dsimp only
  split
  · trivial
  · split <;> trivial

/-- A number holds what its kind says. -/
theorem holds_number (hfirst : first.isDigit = true) (chars : List Char) :
    (number first chars).Holds := by
  unfold number
  split
  · split
    · exact holds_radixNumber _ _ _
    · exact holds_decimalNumber hfirst _
  · exact holds_decimalNumber hfirst []

/-- A number behind a point can be read. -/
theorem holds_pointNumber (hdigit : (chars.head?.map Char.isDigit).getD false = true) :
    ((pointNumber chars).prepend ['.']).Holds := by
  intro hrest
  change (pointNumber chars).rest = [] at hrest
  have htext : (pointNumber chars).text = chars := by
    have happend := keeps_pointNumber chars
    rwa [hrest, List.append_nil] at happend
  change Kind.number.Holds (String.ofList ('.' :: (pointNumber chars).text))
  rw [htext]
  refine isSome_read?_of_point ?_ hrest
  cases chars with
  | nil => cases hdigit
  | cons c rest =>
    have hc : c.isDigit = true := hdigit
    rw [List.takeWhile_cons_of_pos hc]
    exact List.cons_ne_nil _ _

/-- A quoted text ends with its quote. -/
theorem quotedTail_text (quote : Char) (chars : List Char)
    (hkind : (quotedTail quote chars).kind = .string) :
    ∃ content, (quotedTail quote chars).text = content ++ [quote] := by
  fun_induction quotedTail quote chars with
  | case1 => cases hkind
  | case2 c rest hbreak => cases hkind
  | case3 c rest hbreak hquote => exact ⟨[], by rw [beq_iff_eq.mp hquote]; rfl⟩
  | case4 c hbreak hquote hescape => cases hkind
  | case5 c hbreak hquote hescape d rest ih =>
    obtain ⟨content, hcontent⟩ := ih hkind
    exact ⟨c :: d :: content, by rw [Lexeme.prepend, hcontent]; rfl⟩
  | case6 c rest hbreak hquote hescape ih =>
    obtain ⟨content, hcontent⟩ := ih hkind
    exact ⟨c :: content, by rw [Lexeme.prepend, hcontent]; rfl⟩

/-- A quoted text is a string or invalid. -/
theorem kind_quotedTail (quote : Char) (chars : List Char) :
    (quotedTail quote chars).kind = .string ∨ (quotedTail quote chars).kind = .invalid := by
  fun_induction quotedTail quote chars with
  | case3 => exact .inl rfl
  | case5 c hbreak hquote hescape d rest ih => exact ih
  | case6 c rest hbreak hquote hescape ih => exact ih
  | case1 | case2 | case4 => exact .inr rfl

/-- A quoted text is inside its quotes. -/
theorem holds_quoted {quote : Char} (hquote : quote = '"' ∨ quote = '\'') (chars : List Char) :
    ((quotedTail quote chars).prepend [quote]).Holds := by
  intro _
  change (quotedTail quote chars).kind.Holds _
  rcases kind_quotedTail quote chars with hkind | hkind
  · obtain ⟨content, hcontent⟩ := quotedTail_text quote chars hkind
    rw [hkind]
    exact ⟨quote, content, hquote, by rw [Lexeme.prepend, hcontent]; rfl⟩
  · rw [hkind]
    trivial

/-- A word has its spelling. -/
theorem holds_nameOrWord (first : Char) (chars : List Char) : (nameOrWord first chars).Holds := by
  intro _
  unfold nameOrWord
  dsimp only
  split
  · rename_i reserved hfound
    exact Word.ofSpelling?_eq_some_iff.mp hfound
  · trivial

/-- A mark has its spelling. -/
theorem holds_markOrInvalid (first : Char) (chars : List Char) :
    (markOrInvalid first chars).Holds := by
  intro _
  unfold markOrInvalid
  split
  · rename_i sign hfound
    have hleads := List.find?_some hfound
    obtain ⟨rest, hrest⟩ := List.isPrefixOf_iff_prefix.mp hleads
    change String.ofList ((first :: chars).take sign.spelling.toList.length) = sign.spelling
    rw [← hrest, List.take_left, String.ofList_toList]
  · trivial

/-- Every token holds what its kind says. -/
theorem holds_lexeme (first : Char) (chars : List Char) : (lexeme first chars).Holds := by
  rw [lexeme_eq]
  split
  · rename_i hquote
    simp only [Bool.or_eq_true, beq_iff_eq] at hquote
    exact holds_quoted hquote chars
  · split
    · rename_i hdigit
      exact holds_number hdigit chars
    · split
      · exact holds_nameOrWord first chars
      · split
        · rename_i hpoint
          exact holds_pointNumber (Bool.and_eq_true_iff.mp hpoint).2
        · exact holds_markOrInvalid first chars

end Scan

/-- A text that spells a kind holds what the kind says. -/
theorem Spells.holds {text : String} {kind : Kind} (h : Spells text kind) : kind.Holds text := by
  obtain ⟨first, chars, htext, -, hread⟩ := Scan.spells_iff.mp h
  have hholds := Scan.holds_lexeme first chars
  rw [hread] at hholds
  have hkind : kind.Holds (String.ofList (first :: chars)) := hholds rfl
  rwa [← htext, String.ofList_toList] at hkind

end TreeScript
