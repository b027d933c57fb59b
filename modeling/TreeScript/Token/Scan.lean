import TreeScript.Token
import TreeScript.Text.Name

/-!
# Reading tokens

Reading alternates between the gap before a token and the token itself. A gap is made of blanks,
line breaks and comments; a token is as long as its class allows. Every reader here splits the
characters it is given into what it takes and what is left, so no character is lost, and every
token takes at least one, so reading ends.

A number must not run into a name: the whole run is one invalid token then. A quoted text ends
at its quote; a line break or the end of the text before that makes it invalid, and a backslash
takes the next character along, whatever it is. A block comment without an end takes the rest of
the text.
-/

namespace TreeScript.Scan

open Text (isNameStart isNamePart)

/-- The characters that separate tokens without ending a line. -/
def isBlank (c : Char) : Bool := c == ' ' || c == '\t' || c == '\ufeff'

/-- The characters that end a line comment and break a line inside a block comment. -/
def isLineFeed (c : Char) : Bool := c == '\n' || c == '\r'

/-- The characters that break a line between tokens. -/
def isLineBreak (c : Char) : Bool := isLineFeed c || c == '\u2028' || c == '\u2029'

/-! ## Gaps -/

/-- The part of a gap that is being read. -/
inductive Region where
  /-- Between comments. -/
  | between
  /-- Inside a comment that ends with its line. -/
  | line
  /-- Inside a comment with an end mark; `star` tells whether a star came just before. -/
  | block (star : Bool)
deriving DecidableEq, Repr

/-- A gap: what was skipped, whether it broke a line, and what is left. -/
structure Gap where
  skipped : List Char
  newline : Bool
  rest : List Char
deriving DecidableEq, Repr

namespace Gap

/-- A gap with more skipped characters in front, one of which may have broken the line. -/
def prepend (chars : List Char) (newline : Bool) (gap : Gap) : Gap :=
  ⟨chars ++ gap.skipped, newline || gap.newline, gap.rest⟩

end Gap

/-- Skip a gap up to the first character that belongs to a token. -/
def skipGap : Region → List Char → Gap
  | _, [] => ⟨[], false, []⟩
  | .between, '/' :: '/' :: rest => (skipGap .line rest).prepend ['/', '/'] false
  | .between, '/' :: '*' :: rest => (skipGap (.block false) rest).prepend ['/', '*'] false
  | .between, c :: rest =>
    if isBlank c then (skipGap .between rest).prepend [c] false
    else if isLineBreak c then (skipGap .between rest).prepend [c] true
    else ⟨[], false, c :: rest⟩
  | .line, c :: rest =>
    if isLineFeed c then (skipGap .between rest).prepend [c] true
    else (skipGap .line rest).prepend [c] false
  | .block star, c :: rest =>
    let next := if star && c == '/' then .between else .block (c == '*')
    (skipGap next rest).prepend [c] (isLineFeed c)

/-! ## Tokens -/

/-- A token's kind and characters, and what follows it. -/
structure Lexeme where
  kind : Kind
  text : List Char
  rest : List Char
deriving DecidableEq, Repr

/-- A token with more characters in front of it. -/
def Lexeme.prepend (chars : List Char) (lexeme : Lexeme) : Lexeme :=
  { lexeme with text := chars ++ lexeme.text }

/-- A digit of the given base. -/
def isDigitOf : Radix → Char → Bool
  | .hexadecimal, c =>
    c.isDigit || ('a' ≤ c && c ≤ 'f') || ('A' ≤ c && c ≤ 'F')
  | .octal, c => '0' ≤ c && c ≤ '7'
  | .binary, c => c == '0' || c == '1'

/-- The base that a letter after a leading zero announces. -/
def radixOfLetter? (c : Char) : Option Radix :=
  if c == 'x' || c == 'X' then some .hexadecimal
  else if c == 'o' || c == 'O' then some .octal
  else if c == 'b' || c == 'B' then some .binary
  else none

/-- A point and the digits after it, if the characters begin with a point. -/
def splitFraction : List Char → List Char × List Char
  | '.' :: rest => ('.' :: rest.takeWhile Char.isDigit, rest.dropWhile Char.isDigit)
  | chars => ([], chars)

/-- A plus or minus sign, if the characters begin with one. -/
def splitSign : List Char → List Char × List Char
  | c :: rest => if c == '+' || c == '-' then ([c], rest) else ([], c :: rest)
  | [] => ([], [])

/-- An exponent mark, its sign and its digits, if the characters begin with a whole exponent. -/
def splitExponent : List Char → List Char × List Char
  | c :: rest =>
    let (sign, tail) := splitSign rest
    let digits := tail.takeWhile Char.isDigit
    if (c == 'e' || c == 'E') && !digits.isEmpty then
      (c :: sign ++ digits, tail.dropWhile Char.isDigit)
    else ([], c :: rest)
  | [] => ([], [])

/-- The token `text`, or an invalid one that also takes in the name it runs into. -/
def unlessGlued (glues : Char → Bool) (kind : Kind) (text rest : List Char) : Lexeme :=
  if (rest.head?.map glues).getD false then
    ⟨.invalid, text ++ rest.takeWhile isNamePart, rest.dropWhile isNamePart⟩
  else ⟨kind, text, rest⟩

/-- A number after its leading zero and base letter. -/
def radixNumber (radix : Radix) (lead : List Char) (chars : List Char) : Lexeme :=
  let digits := chars.takeWhile (isDigitOf radix)
  let rest := chars.dropWhile (isDigitOf radix)
  if digits.isEmpty then
    ⟨.invalid, lead ++ rest.takeWhile isNamePart, rest.dropWhile isNamePart⟩
  else unlessGlued isNamePart (.radixNumber radix) (lead ++ digits) rest

/-- A number in decimal notation after its first digit. -/
def decimalNumber (first : Char) (chars : List Char) : Lexeme :=
  let (fraction, afterFraction) := splitFraction (chars.dropWhile Char.isDigit)
  let (exponent, rest) := splitExponent afterFraction
  unlessGlued isNameStart .number
    (first :: chars.takeWhile Char.isDigit ++ fraction ++ exponent) rest

/-- A number after its first digit. -/
def number (first : Char) (chars : List Char) : Lexeme :=
  match chars with
  | letter :: rest =>
    match if first == '0' then radixOfLetter? letter else none with
    | some radix => radixNumber radix [first, letter] rest
    | none => decimalNumber first chars
  | [] => decimalNumber first []

/-- The digits and the exponent of a number after the point that it begins with. -/
def pointNumber (chars : List Char) : Lexeme :=
  let (exponent, rest) := splitExponent (chars.dropWhile Char.isDigit)
  ⟨.number, chars.takeWhile Char.isDigit ++ exponent, rest⟩

/-- What is left of a quoted text after its opening quote, up to the closing one. -/
def quotedTail (quote : Char) : List Char → Lexeme
  | [] => ⟨.invalid, [], []⟩
  | c :: rest =>
    if isLineFeed c then ⟨.invalid, [c], rest⟩
    else if c == quote then ⟨.string, [c], rest⟩
    else if c == '\\' then
      match rest with
      | [] => ⟨.invalid, [c], []⟩
      | d :: rest => (quotedTail quote rest).prepend [c, d]
    else (quotedTail quote rest).prepend [c]

/-- A name or a reserved word after its first character. -/
def nameOrWord (first : Char) (chars : List Char) : Lexeme :=
  let text := first :: chars.takeWhile isNamePart
  let kind :=
    match Word.ofSpelling? (String.ofList text) with
    | some word => .word word
    | none => .name
  ⟨kind, text, chars.dropWhile isNamePart⟩

/-! ### Punctuators

A punctuator is read one character at a time: each look at the next character decides whether it
still belongs to the punctuator. -/

/-- The punctuator that has been read so far. -/
def found (mark : Mark) (chars : List Char) : Lexeme := ⟨.mark mark, [], chars⟩

/-- Take the next character along if it is the expected one and go on as `taken` says, and go on as
`left` says if it is not. -/
def eat (expected : Char) (taken left : List Char → Lexeme) (chars : List Char) : Lexeme :=
  match chars with
  | c :: rest => if c == expected then (taken rest).prepend [c] else left chars
  | [] => left chars

/-- What goes on after a point: a number if a digit follows. -/
def afterPoint (chars : List Char) : Lexeme :=
  if (chars.head?.map Char.isDigit).getD false then pointNumber chars else found .dot chars

/-- What goes on after a plus sign. -/
def afterPlus : List Char → Lexeme :=
  eat '+' (found .increment) (eat '=' (found .addAssign) (found .plus))

/-- What goes on after a minus sign. -/
def afterMinus : List Char → Lexeme :=
  eat '-' (found .decrement) (eat '=' (found .subAssign) (found .minus))

/-- What goes on after a star. -/
def afterStar : List Char → Lexeme :=
  eat '*' (eat '=' (found .powerAssign) (found .power)) (eat '=' (found .mulAssign) (found .star))

/-- What goes on after a slash that begins no comment. -/
def afterSlash : List Char → Lexeme := eat '=' (found .divAssign) (found .slash)

/-- What goes on after a percent sign. -/
def afterPercent : List Char → Lexeme := eat '=' (found .modAssign) (found .percent)

/-- What goes on after a less-than sign. -/
def afterLess : List Char → Lexeme :=
  eat '<' (eat '=' (found .shiftLeftAssign) (found .shiftLeft))
    (eat '=' (found .lessEqual) (found .less))

/-- What goes on after a greater-than sign. -/
def afterGreater : List Char → Lexeme :=
  eat '>'
    (eat '>' (eat '=' (found .shiftRightZeroAssign) (found .shiftRightZero))
      (eat '=' (found .shiftRightAssign) (found .shiftRight)))
    (eat '=' (found .greaterEqual) (found .greater))

/-- What goes on after an equals sign. -/
def afterEquals : List Char → Lexeme :=
  eat '=' (eat '=' (found .identical) (found .equal)) (found .assign)

/-- What goes on after an exclamation mark. -/
def afterBang : List Char → Lexeme :=
  eat '=' (eat '=' (found .notIdentical) (found .notEqual)) (found .bang)

/-- What goes on after an ampersand. -/
def afterAmpersand : List Char → Lexeme :=
  eat '&' (found .bothAnd) (eat '=' (found .bitAndAssign) (found .bitAnd))

/-- What goes on after a vertical bar. -/
def afterBar : List Char → Lexeme :=
  eat '|' (found .eitherOr) (eat '=' (found .bitOrAssign) (found .bitOr))

/-- What goes on after a caret. -/
def afterCaret : List Char → Lexeme := eat '=' (found .bitXorAssign) (found .bitXor)

/-- How reading goes on after a character that begins a punctuator. -/
def afterSign? : Char → Option (List Char → Lexeme)
  | '{' => some (found .openBrace)
  | '}' => some (found .closeBrace)
  | '(' => some (found .openParen)
  | ')' => some (found .closeParen)
  | '[' => some (found .openBracket)
  | ']' => some (found .closeBracket)
  | ';' => some (found .semicolon)
  | ',' => some (found .comma)
  | '~' => some (found .tilde)
  | '.' => some afterPoint
  | '+' => some afterPlus
  | '-' => some afterMinus
  | '*' => some afterStar
  | '/' => some afterSlash
  | '%' => some afterPercent
  | '<' => some afterLess
  | '>' => some afterGreater
  | '=' => some afterEquals
  | '!' => some afterBang
  | '&' => some afterAmpersand
  | '|' => some afterBar
  | '^' => some afterCaret
  | _ => none

/-- Read the token that begins with the character `first`. -/
def lexeme (first : Char) (chars : List Char) : Lexeme :=
  match afterSign? first with
  | some read => (read chars).prepend [first]
  | none =>
    if first == '"' || first == '\'' then (quotedTail first chars).prepend [first]
    else if first.isDigit then number first chars
    else if isNameStart first then nameOrWord first chars
    else ⟨.invalid, [first], chars⟩

/-! ## Nothing is lost -/

/-- A gap and what is left of it make up the characters it was read from. -/
theorem skipped_append_rest (region : Region) (chars : List Char) :
    (skipGap region chars).skipped ++ (skipGap region chars).rest = chars := by
  fun_induction skipGap region chars <;> simp_all [Gap.prepend]

/-- What is left after a gap is no longer than the characters it was read from. -/
theorem length_rest_skipGap_le (region : Region) (chars : List Char) :
    (skipGap region chars).rest.length ≤ chars.length := by
  have h := congrArg List.length (skipped_append_rest region chars)
  simp only [List.length_append] at h
  omega

/-- A fraction is split off the text. -/
theorem splitFraction_append (chars : List Char) :
    (splitFraction chars).1 ++ (splitFraction chars).2 = chars := by
  fun_cases splitFraction chars <;> simp

/-- A sign is split off the text. -/
theorem splitSign_append (chars : List Char) :
    (splitSign chars).1 ++ (splitSign chars).2 = chars := by
  fun_cases splitSign chars <;> simp

/-- An exponent is split off the text. -/
theorem splitExponent_append (chars : List Char) :
    (splitExponent chars).1 ++ (splitExponent chars).2 = chars := by
  cases chars with
  | nil => rfl
  | cons c rest =>
    have hsign := splitSign_append rest
    simp only [splitExponent]
    split
    · simp [hsign]
    · simp

/-- What is glued is not lost. -/
theorem unlessGlued_append (glues : Char → Bool) (kind : Kind) (text rest : List Char) :
    (unlessGlued glues kind text rest).text ++ (unlessGlued glues kind text rest).rest =
      text ++ rest := by
  unfold unlessGlued
  split <;> simp

/-- A number with a radix is taken off the text. -/
theorem radixNumber_append (radix : Radix) (lead chars : List Char) :
    (radixNumber radix lead chars).text ++ (radixNumber radix lead chars).rest =
      lead ++ chars := by
  unfold radixNumber
  simp only
  split
  · rename_i h
    have hall := List.takeWhile_append_dropWhile (p := isDigitOf radix) (l := chars)
    rw [List.isEmpty_iff.mp h, List.nil_append] at hall
    simp [hall]
  · simp [unlessGlued_append]

/-- A decimal number is taken off the text. -/
theorem decimalNumber_append (first : Char) (chars : List Char) :
    (decimalNumber first chars).text ++ (decimalNumber first chars).rest = first :: chars := by
  have hfraction := splitFraction_append (chars.dropWhile Char.isDigit)
  have hexponent := splitExponent_append (splitFraction (chars.dropWhile Char.isDigit)).2
  simp only [decimalNumber, unlessGlued_append]
  simp [hfraction, hexponent]

/-- A number is taken off the text. -/
theorem number_append (first : Char) (chars : List Char) :
    (number first chars).text ++ (number first chars).rest = first :: chars := by
  unfold number
  split
  · split
    · simp [radixNumber_append]
    · exact decimalNumber_append _ _
  · exact decimalNumber_append _ _

/-- A quoted text is taken off the text. -/
theorem quotedTail_append (quote : Char) (chars : List Char) :
    (quotedTail quote chars).text ++ (quotedTail quote chars).rest = chars := by
  fun_induction quotedTail quote chars <;> simp_all [Lexeme.prepend]

/-- What a reader takes and what it leaves make up the characters it is given. -/
def Keeps (read : List Char → Lexeme) : Prop :=
  ∀ chars, (read chars).text ++ (read chars).rest = chars

/-- A mark that is found loses nothing. -/
theorem keeps_found (mark : Mark) : Keeps (found mark) := fun _ => rfl

/-- Nor does a choice between two. -/
theorem Keeps.eat {expected : Char} {taken left : List Char → Lexeme} (htaken : Keeps taken)
    (hleft : Keeps left) : Keeps (eat expected taken left) := by
  intro chars
  unfold Scan.eat
  split
  · split
    · exact congrArg (_ :: ·) (htaken _)
    · exact hleft _
  · exact hleft _

/-- Nor does a number behind a point. -/
theorem keeps_pointNumber : Keeps pointNumber := by
  intro chars
  have hexponent := splitExponent_append (chars.dropWhile Char.isDigit)
  simp [pointNumber, hexponent]

/-- Nor does what follows a point. -/
theorem keeps_afterPoint : Keeps afterPoint := by
  intro chars
  unfold afterPoint
  split
  · exact keeps_pointNumber chars
  · rfl

/-- No reader of punctuators loses a character. -/
theorem keeps_of_afterSign? {first : Char} {read : List Char → Lexeme}
    (h : afterSign? first = some read) : Keeps read := by
  unfold afterSign? at h
  split at h <;> cases h
  case h_10 => exact keeps_afterPoint
  case h_11 | h_12 | h_20 | h_21 => exact (keeps_found _).eat ((keeps_found _).eat (keeps_found _))
  case h_13 | h_16 =>
    exact ((keeps_found _).eat (keeps_found _)).eat ((keeps_found _).eat (keeps_found _))
  case h_14 | h_15 | h_22 => exact (keeps_found _).eat (keeps_found _)
  case h_17 =>
    exact (((keeps_found _).eat (keeps_found _)).eat ((keeps_found _).eat (keeps_found _))).eat
      ((keeps_found _).eat (keeps_found _))
  case h_18 | h_19 => exact ((keeps_found _).eat (keeps_found _)).eat (keeps_found _)
  all_goals exact keeps_found _

/-- A token and what follows it make up the characters it was read from. -/
theorem lexeme_append (first : Char) (chars : List Char) :
    (lexeme first chars).text ++ (lexeme first chars).rest = first :: chars := by
  unfold lexeme
  split
  · rename_i read hread
    exact congrArg (first :: ·) (keeps_of_afterSign? hread chars)
  · split
    · simp [Lexeme.prepend, quotedTail_append]
    · split
      · exact number_append _ _
      · split
        · simp [nameOrWord]
        · rfl

/-! ## Every token takes a character -/

/-- What is glued is not empty. -/
theorem unlessGlued_ne_nil {glues : Char → Bool} {kind : Kind} {text rest : List Char}
    (h : text ≠ []) : (unlessGlued glues kind text rest).text ≠ [] := by
  unfold unlessGlued
  split <;> simp [h]

/-- A decimal number is not empty. -/
theorem decimalNumber_ne_nil (first : Char) (chars : List Char) :
    (decimalNumber first chars).text ≠ [] :=
  unlessGlued_ne_nil (by simp)

/-- Nor is one with a radix. -/
theorem radixNumber_ne_nil {radix : Radix} {lead chars : List Char} (h : lead ≠ []) :
    (radixNumber radix lead chars).text ≠ [] := by
  unfold radixNumber
  simp only
  split
  · simp [h]
  · exact unlessGlued_ne_nil (by simp [h])

/-- Nor is any number. -/
theorem number_ne_nil (first : Char) (chars : List Char) : (number first chars).text ≠ [] := by
  unfold number
  split
  · split
    · exact radixNumber_ne_nil (by simp)
    · exact decimalNumber_ne_nil _ _
  · exact decimalNumber_ne_nil _ _

/-- A token has at least one character. -/
theorem lexeme_ne_nil (first : Char) (chars : List Char) : (lexeme first chars).text ≠ [] := by
  unfold lexeme
  split
  · simp [Lexeme.prepend]
  · split
    · simp [Lexeme.prepend]
    · split
      · exact number_ne_nil _ _
      · split
        · simp [nameOrWord]
        · simp

/-- What follows a token is no longer than what followed its first character. -/
theorem length_rest_lexeme_le (first : Char) (chars : List Char) :
    (lexeme first chars).rest.length ≤ chars.length := by
  have hall := congrArg List.length (lexeme_append first chars)
  have htext := List.length_pos_iff.mpr (lexeme_ne_nil first chars)
  simp only [List.length_append, List.length_cons] at hall
  omega

/-! ## Streams -/

/-- Read all tokens of the characters, the first of which stands at `offset`. -/
def scanFrom (offset : Nat) (chars : List Char) : TokenStream :=
  let gap := skipGap .between chars
  let start := offset + Source.byteLength gap.skipped
  match _hrest : gap.rest with
  | [] => ⟨[], start, gap.newline⟩
  | first :: rest =>
    let read := lexeme first rest
    let stop := start + Source.byteLength read.text
    let token : Token := ⟨read.kind, String.ofList read.text, ⟨start, stop⟩, gap.newline⟩
    let later := scanFrom stop read.rest
    { later with tokens := token :: later.tokens }
termination_by chars.length
decreasing_by
  have hgap := length_rest_skipGap_le .between chars
  have htoken := length_rest_lexeme_le first rest
  have hrest : (skipGap .between chars).rest = first :: rest := _hrest
  simp only [hrest, List.length_cons] at hgap
  omega

end TreeScript.Scan

namespace TreeScript

/-- All tokens of a source text. -/
def TokenStream.ofSource (source : String) : TokenStream := Scan.scanFrom 0 source.toList

end TreeScript
