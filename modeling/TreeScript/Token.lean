import TreeScript.Source

/-!
# Tokens

A token is a kind with the text and span it was read from and a note whether a line break came
before it. A reserved word is known by its whole text. Messages call punctuators and reserved words
by what is written for them, and the other kinds by a word. The end of the input is not a token; a
stream of tokens records where it is.
-/

namespace TreeScript

/-- The base of an integer written with a base mark. -/
inductive Radix where
  | hexadecimal
  | octal
  | binary
deriving DecidableEq, Repr

/-- The reserved words. -/
inductive Word where
  | constWord
  | elseWord
  | falseWord
  | functionWord
  | ifWord
  | letWord
  | nullWord
  | returnWord
  | trueWord
  | varWord
  | whileWord
deriving DecidableEq, Repr

namespace Word

/-- The words that stand for a value. The others are keywords. -/
def isLiteral : Word → Bool
  | falseWord | nullWord | trueWord => true
  | _ => false

/-- The reserved word that a text is, if it is one. -/
def ofSpelling? : String → Option Word
  | "const" => some constWord
  | "else" => some elseWord
  | "false" => some falseWord
  | "function" => some functionWord
  | "if" => some ifWord
  | "let" => some letWord
  | "null" => some nullWord
  | "return" => some returnWord
  | "true" => some trueWord
  | "var" => some varWord
  | "while" => some whileWord
  | _ => none

end Word

/-- The punctuators and operators. -/
inductive Mark where
  | openBrace
  | closeBrace
  | openParen
  | closeParen
  | openBracket
  | closeBracket
  | dot
  | semicolon
  | comma
  | less
  | greater
  | lessEqual
  | greaterEqual
  | equal
  | notEqual
  | identical
  | notIdentical
  | plus
  | minus
  | star
  | slash
  | percent
  | power
  | increment
  | decrement
  | shiftLeft
  | shiftRight
  | shiftRightZero
  | bitAnd
  | bitOr
  | bitXor
  | bang
  | tilde
  | bothAnd
  | eitherOr
  | assign
  | addAssign
  | subAssign
  | mulAssign
  | divAssign
  | modAssign
  | powerAssign
  | shiftLeftAssign
  | shiftRightAssign
  | shiftRightZeroAssign
  | bitAndAssign
  | bitOrAssign
  | bitXorAssign
deriving DecidableEq, Repr

namespace Mark

/-- The plain assignment sign and every sign that combines it with an operator. -/
def isAssignment : Mark → Bool
  | assign | addAssign | subAssign | mulAssign | divAssign | modAssign | powerAssign
  | shiftLeftAssign | shiftRightAssign | shiftRightZeroAssign | bitAndAssign | bitOrAssign
  | bitXorAssign => true
  | _ => false

end Mark

/-- What a token is. -/
inductive Kind where
  /-- A number in decimal notation. -/
  | number
  /-- An integer with a base mark. -/
  | radixNumber (radix : Radix)
  /-- A text between quotes, which belong to the token. -/
  | string
  /-- A name that is no reserved word. -/
  | name
  | word (word : Word)
  | mark (mark : Mark)
  /-- A stretch of text that is no token of the language. -/
  | invalid
deriving DecidableEq, Repr

namespace Kind

/-- How a kind is called in messages. -/
def describe : Kind → String
  | number | radixNumber _ => "number"
  | string => "string"
  | name => "identifier"
  | word .constWord => "const"
  | word .elseWord => "else"
  | word .falseWord => "false"
  | word .functionWord => "function"
  | word .ifWord => "if"
  | word .letWord => "let"
  | word .nullWord => "null"
  | word .returnWord => "return"
  | word .trueWord => "true"
  | word .varWord => "var"
  | word .whileWord => "while"
  | mark .openBrace => "\x7b"
  | mark .closeBrace => "\x7d"
  | mark .openParen => "("
  | mark .closeParen => ")"
  | mark .openBracket => "["
  | mark .closeBracket => "]"
  | mark .dot => "."
  | mark .semicolon => ";"
  | mark .comma => ","
  | mark .less => "<"
  | mark .greater => ">"
  | mark .lessEqual => "<="
  | mark .greaterEqual => ">="
  | mark .equal => "=="
  | mark .notEqual => "!="
  | mark .identical => "==="
  | mark .notIdentical => "!=="
  | mark .plus => "+"
  | mark .minus => "-"
  | mark .star => "*"
  | mark .slash => "/"
  | mark .percent => "%"
  | mark .power => "**"
  | mark .increment => "++"
  | mark .decrement => "--"
  | mark .shiftLeft => "<<"
  | mark .shiftRight => ">>"
  | mark .shiftRightZero => ">>>"
  | mark .bitAnd => "&"
  | mark .bitOr => "|"
  | mark .bitXor => "^"
  | mark .bang => "!"
  | mark .tilde => "~"
  | mark .bothAnd => "&&"
  | mark .eitherOr => "||"
  | mark .assign => "="
  | mark .addAssign => "+="
  | mark .subAssign => "-="
  | mark .mulAssign => "*="
  | mark .divAssign => "/="
  | mark .modAssign => "%="
  | mark .powerAssign => "**="
  | mark .shiftLeftAssign => "<<="
  | mark .shiftRightAssign => ">>="
  | mark .shiftRightZeroAssign => ">>>="
  | mark .bitAndAssign => "&="
  | mark .bitOrAssign => "|="
  | mark .bitXorAssign => "^="
  | invalid => "invalid token"

/-- The reserved words that do not stand for a value. -/
def isKeyword : Kind → Bool
  | word w => !w.isLiteral
  | _ => false

/-- The assignment signs. -/
def isAssignment : Kind → Bool
  | mark m => m.isAssignment
  | _ => false

/-- The numbers of every notation. -/
def isNumeric : Kind → Bool
  | number | radixNumber _ => true
  | _ => false

end Kind

/-- A token of a source text. -/
structure Token where
  kind : Kind
  text : String
  span : Span
  /-- Whether a line break separates the token from the one before it. -/
  newlineBefore : Bool
deriving DecidableEq, Repr

/-- All tokens of a source text, and where it ends. -/
structure TokenStream where
  tokens : List Token
  /-- The offset of the end of the text. -/
  endOffset : Nat
  /-- Whether a line break separates the end from the last token. -/
  newlineBeforeEnd : Bool
deriving DecidableEq, Repr

end TreeScript
