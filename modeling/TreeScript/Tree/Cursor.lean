import TreeScript.Tree

/-!
# Reading trees from tokens

A cursor is a place in a stream of tokens: the tokens still to come, where the input ends, and
where the last token taken ended. Reading a tree moves the cursor on. Each reading carries a
bound that the number of tokens left stays below; when the bound is the number of tokens there
were, at least one was taken. Recursion over readings rests on these bounds alone.

A reading that is refused reports what was expected and the cursor where it stopped, so that
reading can go on from there.
-/

namespace TreeScript

/-- What was looked for where something else was found. -/
inductive Expectation where
  /-- A token of one kind. -/
  | token (kind : Kind)
  /-- The end of a statement. -/
  | statementEnd
  /-- The name of a member. -/
  | propertyName
  /-- Any token that can go on with what has been read. -/
  | continuation
deriving DecidableEq, Repr

/-- A place in a stream of tokens. -/
structure Cursor where
  tokens : List Token
  /-- The offset of the end of the input. -/
  endOffset : Nat
  /-- Whether a line break comes before the end of the input. -/
  newlineBeforeEnd : Bool
  /-- The offset where the last token taken ended. -/
  previousEnd : Nat

/-- A refused reading: what was expected, and where. -/
structure Refusal where
  expected : Expectation
  stoppedAt : Cursor

namespace Cursor

/-- The beginning of a stream of tokens. -/
def ofStream (stream : TokenStream) : Cursor :=
  ⟨stream.tokens, stream.endOffset, stream.newlineBeforeEnd, 0⟩

/-- The number of tokens left. -/
def remaining (cursor : Cursor) : Nat := cursor.tokens.length

/-- The kind of the next token, if there is one. -/
def kind? (cursor : Cursor) : Option Kind := cursor.tokens.head?.map (·.kind)

/-- The offset where the next token starts, or the end of the input. -/
def start (cursor : Cursor) : Nat :=
  match cursor.tokens with
  | token :: _ => token.span.start
  | [] => cursor.endOffset

/-- Whether a line break comes before the next token or the end of the input. -/
def newlineBefore (cursor : Cursor) : Bool :=
  match cursor.tokens with
  | token :: _ => token.newlineBefore
  | [] => cursor.newlineBeforeEnd

/-- Whether the next token is the given punctuator. -/
def isAt (cursor : Cursor) (mark : Mark) : Bool := cursor.kind? == some (.mark mark)

/-- Refuse to read on from here. -/
def refuse {α : Type} (cursor : Cursor) (expected : Expectation) : Except Refusal α :=
  .error ⟨expected, cursor⟩

/-- The leaf for the end of the input. -/
def endLeaf (cursor : Cursor) : Tree := .leaf .endOfInput "" (Span.point cursor.endOffset)

end Cursor

/-- Something read, and the cursor after it, which has fewer than `bound` tokens left. -/
structure Reading (α : Type) (bound : Nat) where
  value : α
  next : Cursor
  below : next.remaining < bound

/-- The outcome of an attempt to read. -/
abbrev Attempt (α : Type) (bound : Nat) := Except Refusal (Reading α bound)

namespace Reading

/-- The same reading under a weaker bound. -/
def widen {α : Type} {bound wider : Nat} (reading : Reading α bound) (h : bound ≤ wider) :
    Reading α wider :=
  ⟨reading.value, reading.next, Nat.lt_of_lt_of_le reading.below h⟩

/-- A reading with its value changed. -/
def map {α β : Type} {bound : Nat} (f : α → β) (reading : Reading α bound) : Reading β bound :=
  ⟨f reading.value, reading.next, reading.below⟩

end Reading

namespace Cursor

/-- A cursor past one that is past another is past that one. -/
theorem remaining_lt_trans {last middle first : Cursor} (h : last.remaining < middle.remaining)
    (hmiddle : middle.remaining < first.remaining) : last.remaining < first.remaining :=
  Nat.lt_trans h hmiddle

/-- A cursor not before one that is past another is past that one. -/
theorem remaining_lt_of_lt_succ {last middle first : Cursor}
    (h : last.remaining < middle.remaining + 1) (hmiddle : middle.remaining < first.remaining) :
    last.remaining < first.remaining :=
  Nat.lt_of_le_of_lt (Nat.le_of_lt_succ h) hmiddle

/-- A cursor past another is not before it. -/
theorem remaining_lt_succ {last first : Cursor} (h : last.remaining < first.remaining) :
    last.remaining < first.remaining + 1 :=
  Nat.lt_succ_of_lt h

/-- Read nothing. -/
def stay {α : Type} (cursor : Cursor) (value : α) : Reading α (cursor.remaining + 1) :=
  ⟨value, cursor, Nat.lt_succ_self _⟩

/-- Take the next token if its kind passes a test. -/
def takeIf? (cursor : Cursor) (test : Kind → Bool) : Option (Reading Tree cursor.remaining) :=
  match h : cursor.tokens with
  | [] => none
  | token :: rest =>
    if test token.kind then
      some {
        value := .leaf (.ofKind token.kind) token.text token.span
        next := { cursor with tokens := rest, previousEnd := token.span.stop }
        below := by simp [remaining, h] }
    else none

/-- Take the next token if it is of the given kind. -/
def take? (cursor : Cursor) (kind : Kind) : Option (Reading Tree cursor.remaining) :=
  cursor.takeIf? (· == kind)

/-- Take the next token, which must be of the given kind. -/
def expect (cursor : Cursor) (kind : Kind) : Attempt Tree cursor.remaining :=
  match cursor.take? kind with
  | some leaf => .ok leaf
  | none => cursor.refuse (.token kind)

/-- Take the next token, which must be the given punctuator. -/
def expectMark (cursor : Cursor) (mark : Mark) : Attempt Tree cursor.remaining :=
  cursor.expect (.mark mark)

end Cursor

end TreeScript
