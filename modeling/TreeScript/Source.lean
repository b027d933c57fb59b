/-!
# Places in a source text

Offsets count the bytes of a text's UTF-8 encoding. A span is a half-open range of offsets;
it is not tied to one text, so looking a span up in a text may fail. Lines and columns are
counted from one, lines end at a line feed only, and columns count characters.
-/

namespace TreeScript

/-- A half-open range of byte offsets. -/
structure Span where
  start : Nat
  stop : Nat
deriving DecidableEq, Repr

namespace Span

/-- The empty span at one offset. -/
def point (offset : Nat) : Span := ⟨offset, offset⟩

/-- A span is empty when it stops where it starts. -/
def isEmpty (span : Span) : Bool := span.start == span.stop

/-- The number of bytes covered, for a span that is not reversed. -/
def length? (span : Span) : Option Nat :=
  if span.start ≤ span.stop then some (span.stop - span.start) else none

/-- The smallest span that covers both spans. -/
def join (first second : Span) : Span :=
  ⟨min first.start second.start, max first.stop second.stop⟩

end Span

/-- A line and a column, both counted from one. -/
structure Position where
  line : Nat
  column : Nat
deriving DecidableEq, Repr

namespace Source

/-- The number of bytes that the characters take up. -/
def byteLength : List Char → Nat
  | [] => 0
  | c :: rest => c.utf8Size + byteLength rest

/-- The longest run of leading characters that fits into `bytes` bytes. -/
def takeWithin : Nat → List Char → List Char
  | _, [] => []
  | bytes, c :: rest =>
    if c.utf8Size ≤ bytes then c :: takeWithin (bytes - c.utf8Size) rest else []

/-- The leading characters that take up exactly `bytes` bytes, with what follows them. -/
def splitExactly? : Nat → List Char → Option (List Char × List Char)
  | 0, chars => some ([], chars)
  | _ + 1, [] => none
  | bytes + 1, c :: rest =>
    if c.utf8Size ≤ bytes + 1 then
      (splitExactly? (bytes + 1 - c.utf8Size) rest).map fun (taken, left) => (c :: taken, left)
    else none

/-- The place right after the given characters. -/
def positionAfter (chars : List Char) : Position where
  line := chars.count '\n' + 1
  column := (chars.reverse.takeWhile (· != '\n')).length + 1

/-- The line and column of an offset.

An offset inside a character counts as that character's start, and an offset past the end as
the end. -/
def position (source : String) (offset : Nat) : Position :=
  positionAfter (takeWithin offset source.toList)

/-- The characters under a span, if both of its ends are character boundaries of the text. -/
def slice? (source : String) (span : Span) : Option (List Char) := do
  let size ← span.length?
  let (_, rest) ← splitExactly? span.start source.toList
  let (taken, _) ← splitExactly? size rest
  return taken

/-- The first line, without the line feed that ends it or a carriage return before that. -/
def firstLine (chars : List Char) : List Char :=
  let line := chars.takeWhile (· != '\n')
  if line.length < chars.length && line.getLast? == some '\r' then line.dropLast else line

/-- A span's place and the first line of the text under it, which is empty if the span does not
fit the text. -/
def excerpt (source : String) (span : Span) : String :=
  let place := position source span.start
  let line := String.ofList (firstLine ((slice? source span).getD []))
  s!"{place.line}:{place.column}: `{line}`"

end Source

end TreeScript
