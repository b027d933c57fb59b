import TreeScript.Token.Scan

/-!
# The spelling table and the readers of punctuators

Every reserved word and every punctuator has one spelling. The table of spellings is what tokens are
measured by: reserved words are found by it, messages call tokens by it, and a punctuator is read
with the longest spelling that the text begins with.

The readers of punctuators know no table. Each looks at one character after the other and decides
whether it still belongs to the punctuator. `Scan.Finds` says of such a reader that, behind the
characters it has passed and with some characters ruled out as the next one, it stops at the longest
spelling; a look at one more character passes it on to the two readers behind it. So the nested
looks find what a search through the whole table finds: `Scan.lexeme_eq`.
-/

namespace TreeScript

variable {chars : List Char} {mark : Mark}

/-! ## Spellings -/

namespace Word

/-- The one spelling of a reserved word. -/
def spelling : Word → String
  | constWord => "const"
  | elseWord => "else"
  | falseWord => "false"
  | functionWord => "function"
  | ifWord => "if"
  | letWord => "let"
  | nullWord => "null"
  | returnWord => "return"
  | trueWord => "true"
  | varWord => "var"
  | whileWord => "while"

/-- A text is taken for a reserved word exactly if it is the word's spelling. -/
theorem ofSpelling?_eq_some_iff {text : String} {word : Word} :
    ofSpelling? text = some word ↔ text = word.spelling := by
  constructor
  · intro h
    unfold ofSpelling? at h
    split at h <;> cases h <;> rfl
  · rintro rfl
    cases word <;> rfl

end Word

namespace Mark

/-- Every punctuator, longer spellings before shorter ones. -/
def all : List Mark :=
  [shiftRightZeroAssign,
    identical, notIdentical, shiftRightZero, powerAssign, shiftLeftAssign, shiftRightAssign,
    lessEqual, greaterEqual, equal, notEqual, power, increment, decrement, shiftLeft, shiftRight,
    bothAnd, eitherOr, addAssign, subAssign, mulAssign, divAssign, modAssign, bitAndAssign,
    bitOrAssign, bitXorAssign,
    openBrace, closeBrace, openParen, closeParen, openBracket, closeBracket, dot, semicolon, comma,
    less, greater, plus, minus, star, slash, percent, bitAnd, bitOr, bitXor, bang, tilde, assign]

/-- The one spelling of a punctuator. -/
def spelling : Mark → String
  | openBrace => "\x7b"
  | closeBrace => "\x7d"
  | openParen => "("
  | closeParen => ")"
  | openBracket => "["
  | closeBracket => "]"
  | dot => "."
  | semicolon => ";"
  | comma => ","
  | less => "<"
  | greater => ">"
  | lessEqual => "<="
  | greaterEqual => ">="
  | equal => "=="
  | notEqual => "!="
  | identical => "==="
  | notIdentical => "!=="
  | plus => "+"
  | minus => "-"
  | star => "*"
  | slash => "/"
  | percent => "%"
  | power => "**"
  | increment => "++"
  | decrement => "--"
  | shiftLeft => "<<"
  | shiftRight => ">>"
  | shiftRightZero => ">>>"
  | bitAnd => "&"
  | bitOr => "|"
  | bitXor => "^"
  | bang => "!"
  | tilde => "~"
  | bothAnd => "&&"
  | eitherOr => "||"
  | assign => "="
  | addAssign => "+="
  | subAssign => "-="
  | mulAssign => "*="
  | divAssign => "/="
  | modAssign => "%="
  | powerAssign => "**="
  | shiftLeftAssign => "<<="
  | shiftRightAssign => ">>="
  | shiftRightZeroAssign => ">>>="
  | bitAndAssign => "&="
  | bitOrAssign => "|="
  | bitXorAssign => "^="

/-- The punctuator with the longest spelling that the characters begin with. -/
def longestAt? (chars : List Char) : Option Mark :=
  all.find? fun mark => mark.spelling.toList.isPrefixOf chars

end Mark

namespace Kind

/-- Messages call a reserved word by its spelling. -/
@[simp] theorem describe_word (word : Word) : (Kind.word word).describe = word.spelling := by
  cases word <;> rfl

/-- Messages call a punctuator by its spelling. -/
@[simp] theorem describe_mark (mark : Mark) : (Kind.mark mark).describe = mark.spelling := by
  cases mark <;> rfl

end Kind

/-! ## The longest spelling -/

/-- Of what is allowed, the characters begin with `text` and with nothing longer. -/
structure IsLongest (allowed : List Char → Prop) (text chars : List Char) : Prop where
  allows : allowed text
  leads : text <+: chars
  longest : ∀ other, allowed other → other <+: chars → other.length ≤ text.length

/-- There is one longest text at a place. -/
theorem IsLongest.unique {allowed : List Char → Prop} {first second chars : List Char}
    (hfirst : IsLongest allowed first chars) (hsecond : IsLongest allowed second chars) :
    first = second := by
  have hlength : first.length = second.length :=
    Nat.le_antisymm (hsecond.longest first hfirst.allows hfirst.leads)
      (hfirst.longest second hsecond.allows hsecond.leads)
  have hle := Nat.le_of_eq hlength
  exact (List.prefix_of_prefix_length_le hfirst.leads hsecond.leads hle).eq_of_length
    hlength

/-- The spellings of punctuators. -/
def IsSpelling (text : List Char) : Prop := ∃ mark : Mark, mark.spelling.toList = text

namespace Mark

/-- All marks are listed. -/
theorem mem_all (mark : Mark) : mark ∈ all := by
  cases mark <;> decide

/-- Longer spellings stand before shorter ones. -/
theorem pairwise_all :
    all.Pairwise fun first second =>
      second.spelling.toList.length ≤ first.spelling.toList.length := by
  decide

/-- A spelling alone is read as its punctuator. -/
theorem longestAt?_spelling (mark : Mark) : longestAt? mark.spelling.toList = some mark := by
  cases mark <;> decide

/-- Marks are told by their spellings. -/
theorem eq_of_spelling {first second : Mark}
    (h : first.spelling.toList = second.spelling.toList) : first = second := by
  have hfound := longestAt?_spelling first
  rw [h, longestAt?_spelling second] at hfound
  exact (Option.some.inj hfound).symm

/-- The first mark found is the longest. -/
theorem isLongest_of_longestAt? (h : longestAt? chars = some mark) :
    IsLongest IsSpelling mark.spelling.toList chars := by
  unfold longestAt? at h
  rw [List.find?_eq_some_iff_append] at h
  obtain ⟨hmark, before, later, hall, hbefore⟩ := h
  refine ⟨⟨mark, rfl⟩, List.isPrefixOf_iff_prefix.mp hmark, ?_⟩
  rintro _ ⟨other, rfl⟩ hother
  have hpairs := pairwise_all
  rw [hall, List.pairwise_append, List.pairwise_cons] at hpairs
  have hmem := mem_all other
  rw [hall, List.mem_append, List.mem_cons] at hmem
  rcases hmem with hearlier | rfl | hlater
  · have hnot := hbefore other hearlier
    rw [List.isPrefixOf_iff_prefix.mpr hother] at hnot
    cases hnot
  · exact Nat.le_refl _
  · exact hpairs.2.1.1 other hlater

/-- The search through the table finds the longest spelling. -/
theorem longestAt?_eq_some_iff :
    longestAt? chars = some mark ↔ IsLongest IsSpelling mark.spelling.toList chars := by
  refine ⟨isLongest_of_longestAt?, fun h => ?_⟩
  have hsome : (longestAt? chars).isSome := by
    rw [longestAt?, List.find?_isSome]
    exact ⟨mark, mem_all mark, List.isPrefixOf_iff_prefix.mpr h.leads⟩
  obtain ⟨found, hfound⟩ := Option.isSome_iff_exists.mp hsome
  rw [hfound, eq_of_spelling ((isLongest_of_longestAt? hfound).unique h)]

end Mark

/-! ## Lookahead -/

namespace Scan

open Text (isNameStart isNamePart)

variable {first : Char} {read : List Char → Lexeme}

/-- Every spelling that goes on behind `path` goes on with one of the characters `tried`. -/
def exhausts (path tried : List Char) : Bool :=
  Mark.all.all fun mark =>
    !path.isPrefixOf mark.spelling.toList ||
      (mark.spelling.toList.drop path.length).head?.all tried.contains

/-- Every next character is tried. -/
theorem mem_tried {path tried more : List Char} {c : Char} (h : exhausts path tried = true)
    (hspelling : mark.spelling.toList = path ++ c :: more) :
    c ∈ tried := by
  have hmark := List.all_eq_true.mp h mark (Mark.mem_all mark)
  have hpath : path.isPrefixOf (path ++ c :: more) = true :=
    List.isPrefixOf_iff_prefix.mpr (List.prefix_append path _)
  rw [hspelling, hpath] at hmark
  simpa using hmark

/-- Behind the characters `path`, and where none of the characters `tried` comes next, a reader
stops at the longest spelling. -/
def Finds (path tried : List Char) (read : List Char → Lexeme) : Prop :=
  ∀ chars, (∀ c ∈ tried, chars.head? ≠ some c) →
    ∃ mark, (read chars).kind = .mark mark ∧ path ++ (read chars).text = mark.spelling.toList ∧
      IsLongest IsSpelling mark.spelling.toList (path ++ chars)

namespace Finds

variable {path tried : List Char}

/-- A punctuator is rightly found where no spelling goes on with a character that has not been
tried. -/
theorem found (hspelling : mark.spelling.toList = path) (hexhausts : exhausts path tried = true) :
    Finds path tried (found mark) := by
  intro chars hnext
  refine ⟨mark, rfl, ?_, ⟨mark, rfl⟩, ?_, ?_⟩
  · rw [hspelling]
    exact List.append_nil path
  · rw [hspelling]
    exact List.prefix_append path chars
  · rintro _ ⟨other, rfl⟩ hother
    rw [hspelling]
    rcases Nat.lt_or_ge path.length other.spelling.toList.length with hlonger | hshorter
    · obtain ⟨behind, hbehind⟩ : path <+: other.spelling.toList :=
        List.prefix_of_prefix_length_le (List.prefix_append path chars) hother
          (Nat.le_of_lt hlonger)
      cases behind with
      | nil => simp [← hbehind] at hlonger
      | cons c more =>
        rw [← hbehind, List.prefix_append_right_inj] at hother
        obtain ⟨rest, rfl⟩ := hother
        exact absurd rfl (hnext c (mem_tried hexhausts hbehind.symm))
    · exact hshorter

/-- One more look: the character belongs to the punctuator, or it is ruled out. -/
theorem eat {expected : Char} {taken left : List Char → Lexeme}
    (htaken : Finds (path ++ [expected]) [] taken) (hleft : Finds path (expected :: tried) left) :
    Finds path tried (eat expected taken left) := by
  intro chars hnext
  have hruledOut (hhead : chars.head? ≠ some expected) :
      ∀ c ∈ expected :: tried, chars.head? ≠ some c :=
    List.forall_mem_cons.mpr ⟨hhead, hnext⟩
  unfold Scan.eat
  split
  · rename_i c rest
    split
    · rename_i hc
      obtain rfl := beq_iff_eq.mp hc
      obtain ⟨mark, hkind, htext, hlongest⟩ := htaken rest (List.forall_mem_nil _)
      rw [List.append_assoc] at htext hlongest
      exact ⟨mark, hkind, htext, hlongest⟩
    · rename_i hc
      refine hleft _ (hruledOut ?_)
      intro hhead
      exact hc (beq_iff_eq.mpr (Option.some.inj hhead))
  · refine hleft _ (hruledOut ?_)
    intro hhead
    cases hhead

end Finds

/-- Every reader of punctuators stops at the longest spelling, that of the point unless a digit
follows. -/
theorem finds_of_afterSign? (h : afterSign? first = some read) (hpoint : first ≠ '.') :
    Finds [first] [] read := by
  unfold afterSign? at h
  split at h <;> cases h
  case h_10 => exact absurd rfl hpoint
  case h_11 | h_12 | h_20 | h_21 =>
    exact .eat (.found rfl (by decide)) (.eat (.found rfl (by decide)) (.found rfl (by decide)))
  case h_13 | h_16 =>
    exact .eat (.eat (.found rfl (by decide)) (.found rfl (by decide)))
      (.eat (.found rfl (by decide)) (.found rfl (by decide)))
  case h_14 | h_15 | h_22 => exact .eat (.found rfl (by decide)) (.found rfl (by decide))
  case h_17 =>
    exact .eat
      (.eat (.eat (.found rfl (by decide)) (.found rfl (by decide)))
        (.eat (.found rfl (by decide)) (.found rfl (by decide))))
      (.eat (.found rfl (by decide)) (.found rfl (by decide)))
  case h_18 | h_19 =>
    exact .eat (.eat (.found rfl (by decide)) (.found rfl (by decide))) (.found rfl (by decide))
  all_goals exact .found rfl (by decide)

/-- The punctuator with the longest spelling, or one invalid character. -/
def markOrInvalid (first : Char) (chars : List Char) : Lexeme :=
  match Mark.longestAt? (first :: chars) with
  | some mark =>
    let size := mark.spelling.toList.length
    ⟨.mark mark, (first :: chars).take size, (first :: chars).drop size⟩
  | none => ⟨.invalid, [first], chars⟩

/-- A reader that stops at the longest spelling and loses nothing reads what the table says. -/
theorem prepend_eq_markOrInvalid (hkeeps : Keeps read) (hfinds : Finds [first] [] read)
    (chars : List Char) :
    (read chars).prepend [first] = markOrInvalid first chars := by
  obtain ⟨mark, hkind, htext, hlongest⟩ := hfinds chars (List.forall_mem_nil _)
  have hfound : Mark.longestAt? (first :: chars) = some mark :=
    Mark.longestAt?_eq_some_iff.mpr hlongest
  have hall : first :: chars = mark.spelling.toList ++ (read chars).rest := by
    rw [← htext, List.append_assoc, hkeeps chars]
    rfl
  change Lexeme.mk (read chars).kind ([first] ++ (read chars).text) (read chars).rest = _
  simp only [markOrInvalid, hfound]
  rw [hkind, htext, hall, List.take_left, List.drop_left]

/-- Every spelling begins with a character that a reader of punctuators is chosen by. -/
theorem exists_afterSign? (mark : Mark) :
    ∃ first rest, mark.spelling.toList = first :: rest ∧ (afterSign? first).isSome = true := by
  cases mark <;> exact ⟨_, _, rfl, rfl⟩

/-- Where no mark begins, none is found. -/
theorem longestAt?_of_afterSign? (h : afterSign? first = none) (chars : List Char) :
    Mark.longestAt? (first :: chars) = none := by
  rw [Mark.longestAt?, List.find?_eq_none]
  intro mark _ hleads
  obtain ⟨c, rest, hspelling, hsome⟩ := exists_afterSign? mark
  rw [List.isPrefixOf_iff_prefix, hspelling, List.cons_prefix_cons] at hleads
  rw [hleads.1, h] at hsome
  cases hsome

/-- A punctuator begins neither like a quoted text nor like a number or a name. -/
theorem ne_other_of_afterSign? (h : afterSign? first = some read) :
    (first == '"' || first == '\'') = false ∧ first.isDigit = false ∧
      isNameStart first = false := by
  unfold afterSign? at h
  split at h <;> cases h
  all_goals exact ⟨rfl, rfl, Text.isNameStart_of_ascii (by decide)⟩

/-- A token is a quoted text, a number, a name, a number that begins with its point, the punctuator
with the longest spelling, or invalid. -/
theorem lexeme_eq (first : Char) (chars : List Char) :
    lexeme first chars =
      if first == '"' || first == '\'' then (quotedTail first chars).prepend [first]
      else if first.isDigit then number first chars
      else if isNameStart first then nameOrWord first chars
      else if first == '.' && (chars.head?.map Char.isDigit).getD false then
        (pointNumber chars).prepend ['.']
      else markOrInvalid first chars := by
  cases hread : afterSign? first with
  | none =>
    have hpoint : (first == '.') = false := by
      rw [beq_eq_false_iff_ne]
      rintro rfl
      cases hread
    have hmark : markOrInvalid first chars = ⟨.invalid, [first], chars⟩ := by
      rw [markOrInvalid, longestAt?_of_afterSign? hread]
    simp only [lexeme, hread, hpoint, hmark, Bool.false_and, Bool.false_eq_true, if_false]
  | some read =>
    obtain ⟨hquote, hdigit, hname⟩ := ne_other_of_afterSign? hread
    simp only [lexeme, hread, hquote, hdigit, hname, Bool.false_eq_true, if_false]
    by_cases hpoint : first = '.'
    · subst hpoint
      cases hread
      have hdot : Finds ['.'] [] (found .dot) := .found rfl (by decide)
      rw [afterPoint, beq_self_eq_true, Bool.true_and]
      split
      · rfl
      · exact prepend_eq_markOrInvalid (keeps_found .dot) hdot chars
    · rw [beq_eq_false_iff_ne.mpr hpoint, Bool.false_and, if_neg Bool.false_ne_true]
      exact prepend_eq_markOrInvalid (keeps_of_afterSign? hread) (finds_of_afterSign? hread hpoint)
        chars

end Scan

end TreeScript
