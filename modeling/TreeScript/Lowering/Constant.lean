import TreeScript.Decimal.Reading
import TreeScript.Lowering.Shape

/-!
# Literals

A number is kept in the narrowest of four widths that takes it: two widths of integers, then two
of floating-point numbers, which must come out finite. A number that stands without its usual
wrapping node is read in the two narrow widths only. A quoted text loses its quotes and keeps
everything between them as it is written.
-/

namespace TreeScript

namespace Literal

/-- An integer that fits into 32 bits. -/
def readInt? (text : String) : Option Literal := do
  let value ← Decimal.readInteger? text
  if Int32.minValue.toInt ≤ value ∧ value ≤ Int32.maxValue.toInt then
    some (int (Int32.ofInt value))
  else none

/-- An integer that fits into 64 bits. -/
def readLong? (text : String) : Option Literal := do
  let value ← Decimal.readInteger? text
  if Int64.minValue.toInt ≤ value ∧ value ≤ Int64.maxValue.toInt then
    some (long (Int64.ofInt value))
  else none

/-- A finite number of single width. -/
def readFloat? (text : String) : Option Literal := do
  let value := (← Decimal.read? text).toFloat32
  if Decoded.ofFloat32 value matches .finite _ _ _ then some (float value) else none

/-- A finite number of double width. -/
def readDouble? (text : String) : Option Literal := do
  let value := (← Decimal.read? text).toFloat
  if Decoded.ofFloat value matches .finite _ _ _ then some (double value) else none

/-- A number in the narrowest width that takes it. -/
def readNumber? (text : String) : Option Literal :=
  readInt? text <|> readLong? text <|> readFloat? text <|> readDouble? text

/-- A number in one of the narrow widths. -/
def readNarrowNumber? (text : String) : Option Literal := readInt? text <|> readFloat? text

/-- The text between a pair of quotes. -/
def unquote? (text : String) : Option String :=
  match text.toList with
  | first :: rest =>
    if (first == '"' || first == '\'') && rest.getLast? == some first then
      some (String.ofList rest.dropLast)
    else none
  | [] => none

end Literal

namespace Tree

/-- The constant under a numeric literal. -/
def numericLiteral (tree : Tree) : Except CompileError Literal := do
  let token ← tree.onlyChild
  match token.category?, Literal.readNumber? token.text with
  | some .decimalLiteral, some literal => return literal
  | _, _ => throw token.unimplementedLiteral

/-- The constant under a literal. -/
def literal (tree : Tree) : Except CompileError Literal := do
  let inner ← tree.onlyChild
  if inner.rule? = some .numericLiteral then inner.numericLiteral
  else
    match inner.category? with
    | some .stringLiteral =>
      match Literal.unquote? inner.text with
      | some text => return .string text
      | none => throw (inner.malformed (.unterminatedString inner.text))
    | some .nullLiteral => return .null
    | some .booleanLiteral =>
      match inner.text with
      | "true" => return .bool true
      | "false" => return .bool false
      | other => throw (inner.malformed (.badBoolean other))
    | some .decimalLiteral =>
      match Literal.readNarrowNumber? inner.text with
      | some literal => return literal
      | none => throw inner.unimplementedLiteral
    | _ => throw (inner.unsupported (.literal inner.text))

end Tree

end TreeScript
