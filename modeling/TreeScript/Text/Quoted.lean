import TreeScript.Text.Visible

/-!
# Quoted text

A text is quoted between double quotes. The quote and the backslash are written after a
backslash, as are the usual letters for tab, line feed, carriage return and the null character;
every other character that cannot be shown is written by its code point in hexadecimal.
-/

namespace TreeScript.Text

/-- A code point in hexadecimal between braces, after a backslash and the letter `u`. -/
def escapeCodePoint (c : Char) : List Char :=
  ['\\', 'u', '\x7b'] ++ Nat.toDigits 16 c.toNat ++ ['\x7d']

/-- What one character of a quoted text is written as. -/
def quoteChar (c : Char) : List Char :=
  match c with
  | '\x00' => ['\\', '0']
  | '\t' => ['\\', 't']
  | '\n' => ['\\', 'n']
  | '\r' => ['\\', 'r']
  | '"' => ['\\', '"']
  | '\\' => ['\\', '\\']
  | _ => if isVisible c then [c] else escapeCodePoint c

/-- A text between double quotes, with everything escaped that needs it. -/
def quote (text : String) : String :=
  String.ofList ('"' :: text.toList.flatMap quoteChar ++ ['"'])

end TreeScript.Text
