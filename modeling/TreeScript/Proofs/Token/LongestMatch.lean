import TreeScript.Proofs.Token.Content
import TreeScript.Proofs.Token.Tiling

/-!
# Tokens are as long as they can be

A punctuator is read with the longest spelling that the text goes on with, and a name or reserved
word with all characters that can belong to a name. The reader of a punctuator looks one character
ahead again and again and knows no spellings; that it ends at the longest one is what the search
through a table of spellings is there to say. A reserved word is found by its whole text, so a name
that only begins like one stays a name.

The one exception is a point before a digit, which begins a number.
-/

namespace TreeScript

/-- The longest run of characters that pass a test is what is taken while the test succeeds. -/
theorem isLongest_takeWhile (test : Char → Bool) (chars : List Char) :
    IsLongest (fun run => ∀ c ∈ run, test c = true) (chars.takeWhile test) chars := by
  refine ⟨fun c => List.mem_takeWhile_imp, List.takeWhile_prefix test, ?_⟩
  rintro run hrun ⟨rest, rfl⟩
  rw [List.takeWhile_append_of_pos hrun, List.length_append]
  exact Nat.le_add_right _ _

namespace Scan

open Text (isNameStart isNamePart isNamePart_of_isNameStart)

variable {first : Char} {chars : List Char} {mark : Mark}

/-! ## Which reader is chosen -/

/-- A point and a digit after it. -/
def BeginsFraction (chars : List Char) : Prop :=
  ∃ digit rest, chars = '.' :: digit :: rest ∧ digit.isDigit = true

/-- A fraction begins with a point and a digit. -/
theorem beginsFraction_iff :
    (first == '.' && (chars.head?.map Char.isDigit).getD false) = true ↔
      BeginsFraction (first :: chars) := by
  unfold BeginsFraction
  cases chars with
  | nil => simp
  | cons digit rest => simp

/-- No digit begins a name. -/
theorem isNameStart_of_isDigit {c : Char} (h : c.isDigit = true) : isNameStart c = false := by
  have hbounds : 48 ≤ c.toNat ∧ c.toNat ≤ 57 := Char.isDigit_iff_toNat.mp h
  have halpha : c.isAlpha = false := by
    delta Char.isAlpha Char.isUpper Char.isLower
    simp only [ge_iff_le, UInt32.le_iff_toNat_le, Bool.or_eq_false_iff, Bool.and_eq_false_iff,
      decide_eq_false_iff_not]
    change ¬ (65 ≤ c.toNat ∧ c.toNat ≤ 90) ∧ (¬ 97 ≤ c.toNat ∨ ¬ c.toNat ≤ 122)
    omega
  rw [Text.isNameStart_of_ascii (by omega), halpha, Bool.false_or, Bool.or_eq_false_iff,
    beq_eq_false_iff_ne, beq_eq_false_iff_ne]
  constructor <;> rintro rfl <;> exact absurd h (by decide)

/-- A name begins neither like a quoted text nor like a number. -/
theorem lexeme_of_isNameStart (h : isNameStart first = true) (chars : List Char) :
    lexeme first chars = nameOrWord first chars := by
  have hquote : ¬ (first == '"' || first == '\'') = true := by
    rw [Bool.or_eq_true, beq_iff_eq, beq_iff_eq]
    rintro (rfl | rfl) <;> rw [Text.isNameStart_of_ascii (by decide)] at h <;> cases h
  have hdigit : ¬ first.isDigit = true := by
    intro hdigit
    rw [isNameStart_of_isDigit hdigit] at h
    cases h
  rw [lexeme_eq, if_neg hquote, if_neg hdigit, if_pos h]

/-- Where a mark stands, marks are read. -/
theorem lexeme_of_spelling (h : mark.spelling.toList <+: first :: chars)
    (hpoint : ¬ BeginsFraction (first :: chars)) :
    lexeme first chars = markOrInvalid first chars := by
  obtain ⟨c, rest, hspelling, hsome⟩ := exists_afterSign? mark
  obtain ⟨read, hread⟩ := Option.isSome_iff_exists.mp hsome
  obtain ⟨hquote, hdigit, hname⟩ := ne_other_of_afterSign? hread
  rw [hspelling] at h
  obtain rfl : c = first := (List.cons_prefix_cons.mp h).1
  rw [← beginsFraction_iff] at hpoint
  simp only [lexeme_eq, hquote, hdigit, hname, if_neg hpoint, Bool.false_eq_true, if_false]

/-- Where a fraction begins, a number is read. -/
theorem lexeme_of_beginsFraction (h : BeginsFraction (first :: chars)) :
    lexeme first chars = (pointNumber chars).prepend ['.'] := by
  have hpoint := beginsFraction_iff.mpr h
  obtain ⟨digit, rest, hchars, -⟩ := h
  obtain ⟨rfl, -⟩ := List.cons.inj hchars
  rw [lexeme_eq, if_neg (by decide), if_neg (by decide), if_neg (by decide), if_pos hpoint]

/-! ## Which kind is read -/

/-- No number is a mark. -/
theorem kind_number_ne_mark (first : Char) (chars : List Char) (mark : Mark) :
    (number first chars).kind ≠ .mark mark := by
  have hglued {glues : Char → Bool} {kind : Kind} {text rest : List Char}
      (hkind : kind ≠ .mark mark) : (unlessGlued glues kind text rest).kind ≠ .mark mark := by
    unfold unlessGlued
    split
    · exact Kind.noConfusion
    · exact hkind
  have hdecimal (chars : List Char) : (decimalNumber first chars).kind ≠ .mark mark :=
    hglued Kind.noConfusion
  unfold number
  split
  · split
    · unfold radixNumber
      dsimp only
      split
      · exact Kind.noConfusion
      · exact hglued Kind.noConfusion
    · exact hdecimal _
  · exact hdecimal _

/-- No name or word is a mark. -/
theorem kind_nameOrWord_ne_mark (first : Char) (chars : List Char) (mark : Mark) :
    (nameOrWord first chars).kind ≠ .mark mark := by
  unfold nameOrWord
  dsimp only
  split <;> exact Kind.noConfusion

/-- A punctuator is read by its own reader. -/
theorem lexeme_of_kind (h : (lexeme first chars).kind = .mark mark) :
    lexeme first chars = markOrInvalid first chars ∧ ¬ BeginsFraction (first :: chars) := by
  rw [← beginsFraction_iff]
  rw [lexeme_eq] at h ⊢
  split at h
  · rcases kind_quotedTail first chars with hkind | hkind
    · cases hkind.symm.trans h
    · cases hkind.symm.trans h
  rename_i hquote
  split at h
  · exact absurd h (kind_number_ne_mark first chars mark)
  rename_i hdigit
  split at h
  · exact absurd h (kind_nameOrWord_ne_mark first chars mark)
  rename_i hname
  split at h
  · cases h
  rename_i hpoint
  exact ⟨by rw [if_neg hquote, if_neg hdigit, if_neg hname, if_neg hpoint], hpoint⟩

/-- The mark read is the longest. -/
theorem kind_markOrInvalid_iff :
    (markOrInvalid first chars).kind = .mark mark ↔
      Mark.longestAt? (first :: chars) = some mark := by
  unfold markOrInvalid
  cases Mark.longestAt? (first :: chars) with
  | none => simp
  | some found => simp

/-- A punctuator is read exactly where its spelling is the longest one, unless a number begins
there. -/
theorem kind_lexeme_eq_mark_iff :
    (lexeme first chars).kind = .mark mark ↔
      IsLongest IsSpelling mark.spelling.toList (first :: chars) ∧
        ¬ BeginsFraction (first :: chars) := by
  rw [← Mark.longestAt?_eq_some_iff, ← kind_markOrInvalid_iff]
  constructor
  · intro h
    obtain ⟨hread, hpoint⟩ := lexeme_of_kind h
    exact ⟨hread ▸ h, hpoint⟩
  · rintro ⟨hkind, hpoint⟩
    have hlongest := Mark.longestAt?_eq_some_iff.mp (kind_markOrInvalid_iff.mp hkind)
    rw [lexeme_of_spelling hlongest.leads hpoint]
    exact hkind

/-- A mark has its spelling. -/
theorem text_lexeme_of_mark (h : (lexeme first chars).kind = .mark mark) :
    (lexeme first chars).text = mark.spelling.toList := by
  have hread := (lexeme_of_kind h).1
  have hfound := kind_markOrInvalid_iff.mp (hread ▸ h)
  have hleads := (Mark.longestAt?_eq_some_iff.mp hfound).leads
  rw [hread, markOrInvalid, hfound]
  exact (List.prefix_iff_eq_take.mp hleads).symm

/-! ## Names and reserved words -/

/-- A name is what is no word. -/
theorem kind_nameOrWord (first : Char) (chars : List Char) :
    (nameOrWord first chars).kind =
      (Word.ofSpelling? (String.ofList (nameOrWord first chars).text)).elim .name .word := by
  unfold nameOrWord
  dsimp only
  cases Word.ofSpelling? (String.ofList (first :: chars.takeWhile isNamePart)) <;> rfl

/-- A run of name characters is a reserved word exactly if it is spelled like one. -/
theorem kind_nameOrWord_iff (first : Char) (chars : List Char) :
    let text := String.ofList (nameOrWord first chars).text
    (∀ word, (nameOrWord first chars).kind = .word word ↔ text = word.spelling) ∧
      ((nameOrWord first chars).kind = .name ↔ ∀ word : Word, text ≠ word.spelling) := by
  intro text
  rw [kind_nameOrWord]
  change (∀ word, (Word.ofSpelling? text).elim Kind.name Kind.word = _ ↔ _) ∧ _
  simp only [← Word.ofSpelling?_eq_some_iff, ne_eq]
  cases Word.ofSpelling? text with
  | none => simp
  | some found => simp

/-- Where a name may begin, all characters that can belong to it are taken. -/
theorem isLongest_nameOrWord (hfirst : isNameStart first = true) (chars : List Char) :
    IsLongest (fun run => ∀ c ∈ run, isNamePart c = true) (nameOrWord first chars).text
      (first :: chars) := by
  have htext : (nameOrWord first chars).text = (first :: chars).takeWhile isNamePart := by
    rw [List.takeWhile_cons_of_pos (isNamePart_of_isNameStart hfirst)]
    rfl
  rw [htext]
  exact isLongest_takeWhile isNamePart _

/-! ## Streams -/

/-- Every token of a stream was read at its place, and the tokens of the text behind it follow. -/
theorem later_of_mem_scanFrom (offset : Nat) (chars before : List Char)
    (hbefore : Source.byteLength before = offset) {token : Token}
    (h : token ∈ (scanFrom offset chars).tokens) :
    ∃ front first rest, before ++ chars = front ++ first :: rest ∧
      Source.byteLength front = token.span.start ∧ token.kind = (lexeme first rest).kind ∧
      token.text = String.ofList (lexeme first rest).text ∧
      (scanFrom token.span.stop (lexeme first rest).rest).tokens <:+
        (scanFrom offset chars).tokens := by
  fun_induction scanFrom offset chars generalizing before with
  | case1 => cases h
  | case2 offset chars gap start first rest hrest read stop added later ih =>
    subst hbefore
    rcases List.mem_cons.mp h with rfl | hlater
    · have hchars := skipped_append_rest .between chars
      rw [hrest] at hchars
      refine ⟨before ++ gap.skipped, first, rest, ?_, Source.byteLength_append _ _, rfl, rfl, ?_⟩
      · rw [List.append_assoc, hchars]
      · exact List.suffix_cons _ _
    · have hall : gap.skipped ++ read.text ++ read.rest = chars := skipped_append_lexeme hrest
      have hstop : Source.byteLength (before ++ (gap.skipped ++ read.text)) = stop := by
        simp only [Source.byteLength_append, stop, start, Nat.add_assoc]
      obtain ⟨front, c, tail, hparts, hstart, hkind, htext, hsuffix⟩ := ih _ hstop hlater
      rw [List.append_assoc, hall] at hparts
      exact ⟨front, c, tail, hparts, hstart, hkind, htext, hsuffix.trans (List.suffix_cons _ _)⟩

/-- Every token of a stream was read at its place. -/
theorem read_of_mem_scanFrom (offset : Nat) (chars before : List Char)
    (hbefore : Source.byteLength before = offset) {token : Token}
    (h : token ∈ (scanFrom offset chars).tokens) :
    ∃ front first rest, before ++ chars = front ++ first :: rest ∧
      Source.byteLength front = token.span.start ∧ token.kind = (lexeme first rest).kind ∧
      token.text = String.ofList (lexeme first rest).text := by
  obtain ⟨front, first, rest, hchars, hstart, hkind, htext, -⟩ :=
    later_of_mem_scanFrom offset chars before hbefore h
  exact ⟨front, first, rest, hchars, hstart, hkind, htext⟩

end Scan

/-- For every token of a source text, let `chars` be the text from where the token starts. The token
is a punctuator exactly if the punctuator's spelling is the longest one that `chars` begins with
and no number begins there with a point; its text is then that spelling, by which it is called in
messages. A point before a digit begins a number. If the token begins with a character that can
begin a name, then its text is the longest run of characters that can belong to names; it is a
reserved word exactly if that whole run is the word's spelling, and a name otherwise. -/
theorem TokenStream.tokens_longest (source : String) :
    ∀ token ∈ (TokenStream.ofSource source).tokens, ∃ front chars,
      source.toList = front ++ chars ∧ Source.byteLength front = token.span.start ∧
      token.text.toList <+: chars ∧
      (∀ mark, token.kind = .mark mark ↔
        IsLongest IsSpelling mark.spelling.toList chars ∧ ¬ Scan.BeginsFraction chars) ∧
      (∀ mark, token.kind = .mark mark →
        token.text = mark.spelling ∧ token.text = token.kind.describe) ∧
      (Scan.BeginsFraction chars → token.kind = .number) ∧
      ∀ first, token.text.toList.head? = some first → Text.isNameStart first = true →
        IsLongest (fun run => ∀ c ∈ run, Text.isNamePart c = true) token.text.toList chars ∧
        (∀ word, token.kind = .word word ↔ token.text = word.spelling) ∧
        (token.kind = .name ↔ ∀ word : Word, token.text ≠ word.spelling) := by
  intro token htoken
  obtain ⟨front, first, rest, hsource, hstart, hkind, htext⟩ :=
    Scan.read_of_mem_scanFrom 0 source.toList [] rfl htoken
  have hchars : token.text.toList = (Scan.lexeme first rest).text := by
    rw [htext, String.toList_ofList]
  refine ⟨front, first :: rest, hsource, hstart, ?_, ?_, ?_, ?_, ?_⟩
  · exact ⟨(Scan.lexeme first rest).rest, hchars ▸ Scan.lexeme_append first rest⟩
  · intro mark
    rw [hkind, Scan.kind_lexeme_eq_mark_iff]
  · intro mark hmark
    have hspelling : token.text = mark.spelling := by
      rw [htext, Scan.text_lexeme_of_mark (hkind ▸ hmark), String.ofList_toList]
    exact ⟨hspelling, by rw [hspelling, hmark, Kind.describe_mark]⟩
  · intro hpoint
    rw [hkind, Scan.lexeme_of_beginsFraction hpoint]
    rfl
  · intro start hhead hname
    obtain ⟨tail, htail, -⟩ := Scan.lexeme_text_cons first rest
    obtain rfl : first = start := by
      rw [hchars, htail] at hhead
      exact Option.some.inj hhead
    rw [hchars, hkind, htext, Scan.lexeme_of_isNameStart hname]
    exact ⟨Scan.isLongest_nameOrWord hname rest, Scan.kind_nameOrWord_iff first rest⟩

/-- Four punctuators begin like the first token here, and the second one begins like a reserved
word. -/
theorem TokenStream.tokens_longest_iffy :
    let tokens := (TokenStream.ofSource ">>>=iffy").tokens
    (⟨.mark .shiftRightZeroAssign, ">>>=", ⟨0, 4⟩, false⟩ ∈ tokens ∧
      ∃ front chars, ">>>=iffy".toList = front ++ chars ∧ Source.byteLength front = 0 ∧
        IsLongest IsSpelling ">>>=".toList chars) ∧
    (⟨.name, "iffy", ⟨4, 8⟩, false⟩ ∈ tokens ∧
      ∃ front chars, ">>>=iffy".toList = front ++ chars ∧ Source.byteLength front = 4 ∧
        IsLongest (fun run => ∀ c ∈ run, Text.isNamePart c = true) "iffy".toList chars ∧
        ∀ word : Word, "iffy" ≠ word.spelling) := by
  intro tokens
  have htokens : tokens = [⟨.mark .shiftRightZeroAssign, ">>>=", ⟨0, 4⟩, false⟩,
      ⟨.name, "iffy", ⟨4, 8⟩, false⟩] := by
    have hfirst : Scan.lexeme '>' ">>=iffy".toList =
        ⟨.mark .shiftRightZeroAssign, ">>>=".toList, "iffy".toList⟩ := by decide
    have hsecond : Scan.lexeme 'i' "ffy".toList = ⟨.name, "iffy".toList, []⟩ := by decide
    simp only [tokens, TokenStream.ofSource]
    rw [Scan.scanFrom_of_lexeme rfl hfirst, Scan.scanFrom_of_lexeme rfl hsecond, Scan.scanFrom_nil]
    rfl
  have hmark : ⟨.mark .shiftRightZeroAssign, ">>>=", ⟨0, 4⟩, false⟩ ∈ tokens := by
    rw [htokens]
    decide
  have hname : ⟨.name, "iffy", ⟨4, 8⟩, false⟩ ∈ tokens := by
    rw [htokens]
    decide
  obtain ⟨front, chars, hsource, hstart, -, hlongest, -⟩ := tokens_longest ">>>=iffy" _ hmark
  obtain ⟨front', chars', hsource', hstart', -, -, -, -, hrun⟩ := tokens_longest ">>>=iffy" _ hname
  obtain ⟨hrun, -, hkind⟩ := hrun 'i' rfl (by decide)
  exact ⟨⟨hmark, front, chars, hsource, hstart, ((hlongest _).mp rfl).1⟩,
    hname, front', chars', hsource', hstart', hrun, hkind.mp rfl⟩

end TreeScript
