import TreeScript.Proofs.Tree.Pursuit

/-!
# Readers make progress

A reader never goes back in its input, and a reader of statements or expressions that succeeds has
taken at least one token. This holds from every cursor, so also where a refused reading has left
it: `Cursor.advances_read`, `Cursor.reaches_resumed`.

The readers that repeat something are loops with passes. A pass begins only where a token is left,
and leaves fewer. So each loop comes to its end within as many passes as there are tokens left, with
the outcome of its reader: `Cursor.loopsEnd`. A pass that is refused counts as a pass.
-/

namespace TreeScript

open TreeScript.Tree (expression)

/-! ## Going forwards -/

/-- Where an attempt ends, whether it succeeds or is refused. -/
def Attempt.endsAt {α : Type} {bound : Nat} : Attempt α bound → Cursor
  | .ok reading => reading.next
  | .error refusal => refusal.stoppedAt

/-- A pursuit ends at a cursor that is reached. -/
theorem Pursues.reaches {α : Type} {bound : Nat} {goals after : List Goal} {c : Cursor}
    {attempt : Attempt α bound} (h : Pursues goals c attempt after) :
    c.Reaches (Attempt.endsAt attempt) := by
  cases h with
  | ok hreaches _ => exact hreaches
  | error hreaches _ _ => exact hreaches

/-- The readers that take a token whenever they succeed. -/
inductive Reader where
  | statement
  | sequence
  | expression (strength : Strength)
deriving DecidableEq, Repr

namespace Reader

/-- What a reader does. -/
def read : Reader → (c : Cursor) → Attempt Tree c.remaining
  | statement, c => c.readStatement
  | sequence, c => c.readSequence
  | expression .assignment, c => c.readAssignment
  | expression (.level level), c => c.readBinary level
  | expression .power, c => c.readPower
  | expression .signed, c => c.readSigned
  | expression .stepped, c => c.readStepped
  | expression .chain, c => c.readChain
  | expression .primary, c => c.readPrimary

/-- The goals of a reader. -/
def goals : Reader → List Goal
  | statement => [.statement]
  | sequence => Goal.sequence
  | expression .assignment => [.assignment]
  | expression (.level level) => [.binary level]
  | expression .power => [.power]
  | expression .signed => [.signed]
  | expression .stepped => [.stepped]
  | expression .chain => [.chain]
  | expression .primary => [.primary]

/-- Every reader pursues its goals. -/
theorem pursues (reader : Reader) (c : Cursor) (stack : List Goal) :
    Pursues (reader.goals ++ stack) c (reader.read c) stack := by
  cases reader with
  | statement => exact c.pursues_readStatement stack
  | sequence => exact c.pursues_readSequence stack
  | expression strength =>
    cases strength with
    | assignment => exact c.pursues_readAssignment stack
    | level level => exact c.pursues_readBinary level stack
    | power => exact c.pursues_readPower stack
    | signed => exact c.pursues_readSigned stack
    | stepped => exact c.pursues_readStepped stack
    | chain => exact c.pursues_readChain stack
    | primary => exact c.pursues_readPrimary stack

end Reader

/-- What may be asked for from outside: a program, a statement or a sequence of expressions. -/
inductive EntryPoint where
  | program
  | statement
  | sequence
deriving DecidableEq, Repr

/-- Where reading from an entry point ends, whether it succeeds or is refused. -/
def EntryPoint.endsAt : EntryPoint → Cursor → Cursor
  | program, c => Attempt.endsAt c.readProgram
  | statement, c => Attempt.endsAt c.readStatement
  | sequence, c => Attempt.endsAt c.readSequence

namespace Cursor

/-- An attempt does not go back, and what it reads takes at least one token. -/
structure Advances {α : Type} {bound : Nat} (c : Cursor) (attempt : Attempt α bound) : Prop where
  forwards : c.Reaches (Attempt.endsAt attempt)
  past : ∀ reading, attempt = .ok reading → reading.next.remaining < c.remaining

/-- Every reader advances. -/
theorem advances_read (c : Cursor) (reader : Reader) : c.Advances (reader.read c) :=
  ⟨(reader.pursues c []).reaches, fun reading _ => reading.below⟩

/-- Every entry point moves on or stays. -/
theorem reaches_endsAt (c : Cursor) (entry : EntryPoint) : c.Reaches (entry.endsAt c) := by
  cases entry with
  | program => exact c.pursues_readProgram.reaches
  | statement => exact (c.pursues_readStatement []).reaches
  | sequence => exact (c.pursues_readSequence []).reaches

/-- The cursor after reading from entry points in turn, each from where the one before has ended. -/
def resumed (c : Cursor) (entries : List EntryPoint) : Cursor :=
  entries.foldl (fun c entry => entry.endsAt c) c

/-- Resuming moves on or stays. -/
theorem reaches_resumed (c : Cursor) (entries : List EntryPoint) :
    c.Reaches (c.resumed entries) := by
  induction entries generalizing c with
  | nil => exact .refl c
  | cons entry entries ih => exact (c.reaches_endsAt entry).trans (ih (entry.endsAt c))

end Cursor

/-! ## Loops -/

/-- What an attempt gives and where it ends, without its bound. -/
def Attempt.outcome {α β : Type} {bound : Nat} (f : α → β) (attempt : Attempt α bound) :
    Except Refusal (β × Cursor) :=
  attempt.map fun reading => (f reading.value, reading.next)

namespace Attempt

variable {α β γ δ : Type} {bound wider narrower : Nat} {attempt : Attempt α bound}
  {next : Reading α bound → Attempt β wider} {f : β → δ}

/-- What follows an attempt takes no more tokens and only changes the value. -/
theorem outcome_bind {g : α → δ}
    (h : ∀ value c hbelow, outcome f (next ⟨value, c, hbelow⟩) = .ok (g value, c)) :
    outcome f (attempt >>= next) = outcome g attempt := by
  cases attempt with
  | error refusal => rfl
  | ok reading => exact h reading.value reading.next reading.below

/-- Behind the same attempt, a reader and a pass of a loop go on to the same outcome. -/
theorem outcome_bind_eq {pass : Reading α bound → Attempt γ narrower}
    {read : Reading γ narrower → Except Refusal (δ × Cursor)}
    (h : ∀ value c hbelow,
      outcome f (next ⟨value, c, hbelow⟩) = pass ⟨value, c, hbelow⟩ >>= read) :
    outcome f (attempt >>= next) = attempt >>= pass >>= read := by
  cases attempt with
  | error refusal => rfl
  | ok reading => exact h reading.value reading.next reading.below

end Attempt

/-- What a loop does with what is gathered so far, at a cursor: nothing where it ends, and else one
pass, which takes at least one token or is refused. -/
def Loop (α : Type) := α → (c : Cursor) → Option (Attempt α c.remaining)

namespace Loop

variable {α : Type} {loop : Loop α} {read : α → Cursor → Except Refusal (α × Cursor)}
  {gathered : α} {c : Cursor}

/-- Run a loop to its end, if a number of passes is enough. -/
def run (loop : Loop α) : Nat → α → Cursor → Option (Except Refusal (α × Cursor))
  | 0, gathered, c =>
    match loop gathered c with
    | none => some (.ok (gathered, c))
    | some _ => none
  | passes + 1, gathered, c =>
    match loop gathered c with
    | none => some (.ok (gathered, c))
    | some (.error refusal) => some (.error refusal)
    | some (.ok reading) => loop.run passes reading.value reading.next

/-- A loop that has ended stays ended. -/
theorem run_of_ended (h : loop gathered c = none) (passes : Nat) :
    loop.run passes gathered c = some (.ok (gathered, c)) := by
  cases passes <;> rw [run, h]

/-- What is read at a cursor is what the loop does there: it is gathered where the loop ends, and
else comes behind a pass. -/
inductive Unrolls (loop : Loop α) (read : α → Cursor → Except Refusal (α × Cursor))
    (gathered : α) (c : Cursor) : Prop
  | ended : loop gathered c = none → read gathered c = .ok (gathered, c) →
      Unrolls loop read gathered c
  | passed {pass : Attempt α c.remaining} : loop gathered c = some pass → c.tokens ≠ [] →
      read gathered c = pass >>= (fun reading => read reading.value reading.next) →
      Unrolls loop read gathered c

/-- A loop ends within as many passes as there are tokens left, with the outcome of its reader. -/
theorem run_eq (hunrolls : ∀ gathered c, loop.Unrolls read gathered c) (passes : Nat) (gathered : α)
    (c : Cursor) (hpasses : c.remaining ≤ passes) :
    loop.run passes gathered c = some (read gathered c) := by
  induction passes generalizing gathered c with
  | zero =>
    have hend : c.tokens = [] := List.length_eq_zero_iff.mp (Nat.le_zero.mp hpasses)
    cases hunrolls gathered c with
    | ended hloop hread => rw [run_of_ended hloop, hread]
    | passed _ htokens _ => exact absurd hend htokens
  | succ passes ih =>
    cases hunrolls gathered c with
    | ended hloop hread => rw [run_of_ended hloop, hread]
    | @passed pass hloop _ hread =>
      rw [run, hloop, hread]
      cases pass with
      | error refusal => rfl
      | ok reading => exact ih reading.value reading.next (by have := reading.below; omega)

end Loop

namespace Cursor

/-- Statements up to a closing brace or the end of the input. -/
def statementLoop : Loop (List Tree) := fun before c =>
  if c.isAt .closeBrace || c.tokens.isEmpty then none
  else some do
    let statement ← c.readStatement
    return statement.map fun tree => before ++ [tree]

/-- Elements and commas up to a closing bracket or the end of the input. -/
def elementLoop : Loop (List Tree) := fun before c =>
  if c.tokens.isEmpty || c.isAt .closeBracket then none
  else
    match c.take? (.mark .comma) with
    | some comma => some (.ok (comma.map fun tree => before ++ [tree]))
    | none => some do
      let ⟨value, afterValue, hvalue⟩ ← c.readAssignment
      let element := .wrap .arrayElement value
      if afterValue.isAt .closeBracket then return ⟨before ++ [element], afterValue, hvalue⟩
      else
        let ⟨comma, afterComma, hcomma⟩ ← afterValue.expectMark .comma
        return ⟨before ++ [element, comma], afterComma, remaining_lt_trans hcomma hvalue⟩

/-- The operators of a level and their right operands. -/
def operationLoop (level : Level) : Loop Tree := fun left c =>
  match c.takeIf? level.accepts with
  | none => none
  | some ⟨sign, afterSign, hsign⟩ => some do
    let ⟨right, afterRight, hright⟩ ← afterSign.readOperand level
    return ⟨expression [left, sign, right], afterRight, remaining_lt_trans hright hsign⟩

/-- Members, indices and argument lists. -/
def accessLoop : Loop Tree := fun subject c =>
  match c.take? (.mark .dot) with
  | some ⟨dot, afterDot, hdot⟩ => some do
    let ⟨name, afterName, hname⟩ ← afterDot.readMemberName
    return ⟨expression [subject, dot, name], afterName, remaining_lt_trans hname hdot⟩
  | none =>
    match c.take? (.mark .openBracket) with
    | some ⟨left, afterLeft, hleft⟩ => some do
      let ⟨index, afterIndex, hindex⟩ ← afterLeft.readSequence
      let ⟨right, afterRight, hright⟩ ← afterIndex.expectMark .closeBracket
      have hindex := remaining_lt_trans hindex hleft
      return ⟨expression [subject, left, index, right], afterRight,
        remaining_lt_trans hright hindex⟩
    | none =>
      match c.take? (.mark .openParen) with
      | some ⟨left, afterLeft, hleft⟩ => some do
        let ⟨arguments, afterArguments, harguments⟩ ← afterLeft.readArguments left
        return ⟨expression [subject, arguments], afterArguments,
          remaining_lt_trans harguments hleft⟩
      | none => none

/-- Items, each after its comma. -/
def itemLoop (readItem : (c : Cursor) → Attempt Tree c.remaining) : Loop (List (Tree × Tree)) :=
  fun before c =>
    match c.take? (.mark .comma) with
    | none => none
    | some ⟨comma, afterComma, hcomma⟩ => some do
      let ⟨item, afterItem, hitem⟩ ← readItem afterComma
      return ⟨before ++ [(comma, item)], afterItem, remaining_lt_trans hitem hcomma⟩

/-- Items with commas between them: the first pass is made in any case, the others at a comma. -/
def listLoop (readItem : (c : Cursor) → Attempt Tree c.remaining) : Loop (Option CommaList)
  | none, c => some do
    let first ← readItem c
    return first.map fun tree => some ⟨tree, []⟩
  | some list, c =>
    match itemLoop readItem list.rest c with
    | none => none
    | some pass => some do
      let rest ← pass
      return rest.map fun items => some ⟨list.first, items⟩

/-- Statements are read by a loop. -/
theorem statementLoop_unrolls (before : List Tree) (c : Cursor) :
    statementLoop.Unrolls (fun before c => Attempt.outcome (before ++ ·) c.readStatements)
      before c := by
  by_cases hend : (c.isAt .closeBrace || c.tokens.isEmpty) = true
  · refine .ended (if_pos hend) ?_
    rw [readStatements, if_pos hend]
    exact congrArg (fun list => Except.ok (list, c)) (List.append_nil before)
  · have htokens : c.tokens ≠ [] := by
      intro hnil
      simp [hnil] at hend
    refine .passed (if_neg hend) htokens ?_
    rw [readStatements, if_neg hend]
    refine Attempt.outcome_bind_eq fun tree c₁ hstatement => ?_
    exact Attempt.outcome_bind fun rest c₂ hrest =>
      congrArg (fun list => Except.ok (list, c₂)) (List.append_cons before tree rest)

/-- At their end, no more elements are read. -/
theorem outcome_readElements_of_end {c : Cursor}
    (hend : (c.tokens.isEmpty || c.isAt .closeBracket) = true) (before : List Tree) :
    Attempt.outcome (before ++ ·) c.readElements = .ok (before, c) := by
  rw [readElements, if_pos hend]
  exact congrArg (fun list => Except.ok (list, c)) (List.append_nil before)

/-- Elements are read by a loop. -/
theorem elementLoop_unrolls (before : List Tree) (c : Cursor) :
    elementLoop.Unrolls (fun before c => Attempt.outcome (before ++ ·) c.readElements)
      before c := by
  by_cases hend : (c.tokens.isEmpty || c.isAt .closeBracket) = true
  · exact .ended (if_pos hend) (outcome_readElements_of_end hend before)
  have htokens : c.tokens ≠ [] := by
    intro hnil
    simp [hnil] at hend
  rcases c.take?_cases (.mark .comma) with ⟨comma, c₁, hcomma, htakes, htake⟩ | ⟨-, htake⟩
  · refine .passed ((if_neg hend).trans (by rw [htake])) htokens ?_
    rw [readElements, if_neg hend, htake]
    exact Attempt.outcome_bind fun rest c₂ hrest =>
      congrArg (fun list => Except.ok (list, c₂)) (List.append_cons before comma.leaf rest)
  · refine .passed ((if_neg hend).trans (by rw [htake])) htokens ?_
    rw [readElements, if_neg hend, htake]
    refine Attempt.outcome_bind_eq fun value c₁ hvalue => ?_
    by_cases hlast : c₁.isAt .closeBracket = true
    · -- The reader stops here by itself, the loop only when it looks at the bracket again.
      have hstops : (c₁.tokens.isEmpty || c₁.isAt .closeBracket) = true := by
        rw [hlast, Bool.or_true]
      simp only [if_pos hlast]
      exact (outcome_readElements_of_end hstops _).symm
    · simp only [if_neg hlast]
      refine Attempt.outcome_bind_eq fun comma c₂ hcomma => ?_
      exact Attempt.outcome_bind fun rest c₃ hrest =>
        congrArg (fun list => Except.ok (list, c₃))
          (List.append_assoc before [.wrap .arrayElement value, comma] rest).symm

/-- Operations are read by a loop. -/
theorem operationLoop_unrolls (level : Level) (left : Tree) (c : Cursor) :
    (operationLoop level).Unrolls (fun left c => Attempt.outcome id (c.readOperations level left))
      left c := by
  rcases c.takeIf?_cases level.accepts with ⟨sign, c₁, hsign, htakes, htake⟩ | ⟨hsees, htake⟩
  · refine .passed (by rw [operationLoop, htake]) (tokens_ne_nil_of_sees htakes.sees) ?_
    rw [readOperations, htake]
    refine Attempt.outcome_bind_eq fun right c₂ hright => ?_
    exact Attempt.outcome_bind fun tree c₃ htree => rfl
  · refine .ended (by rw [operationLoop, htake]) ?_
    rw [readOperations, htake]
    rfl

/-- Accesses are read by a loop. -/
theorem accessLoop_unrolls (subject : Tree) (c : Cursor) :
    accessLoop.Unrolls (fun subject c => Attempt.outcome id (c.readAccesses subject))
      subject c := by
  rcases c.take?_cases (.mark .dot) with ⟨dot, c₁, hdot, htakes, hatDot⟩ | ⟨-, hatDot⟩
  · refine .passed (by rw [accessLoop, hatDot]) (tokens_ne_nil_of_sees htakes.sees) ?_
    rw [readAccesses, hatDot]
    refine Attempt.outcome_bind_eq fun name c₂ hname => ?_
    exact Attempt.outcome_bind fun tree c₃ htree => rfl
  rcases c.take?_cases (.mark .openBracket) with
    ⟨left, c₁, hleft, htakes, hatBracket⟩ | ⟨-, hatBracket⟩
  · refine .passed (by rw [accessLoop, hatDot, hatBracket]) (tokens_ne_nil_of_sees htakes.sees) ?_
    rw [readAccesses, hatDot, hatBracket]
    refine Attempt.outcome_bind_eq fun index c₂ hindex => ?_
    refine Attempt.outcome_bind_eq fun right c₃ hright => ?_
    exact Attempt.outcome_bind fun tree c₄ htree => rfl
  rcases c.take?_cases (.mark .openParen) with
    ⟨left, c₁, hleft, htakes, hatParen⟩ | ⟨-, hatParen⟩
  · refine .passed (by rw [accessLoop, hatDot, hatBracket, hatParen])
      (tokens_ne_nil_of_sees htakes.sees) ?_
    rw [readAccesses, hatDot, hatBracket, hatParen]
    refine Attempt.outcome_bind_eq fun arguments c₂ harguments => ?_
    exact Attempt.outcome_bind fun tree c₃ htree => rfl
  · refine .ended (by rw [accessLoop, hatDot, hatBracket, hatParen]) ?_
    rw [readAccesses, hatDot, hatBracket, hatParen]
    rfl

section

variable (readItem : (c : Cursor) → Attempt Tree c.remaining)

/-- Items are read by a loop. -/
theorem itemLoop_unrolls (before : List (Tree × Tree)) (c : Cursor) :
    (itemLoop readItem).Unrolls
      (fun before c => Attempt.outcome (before ++ ·) (c.readMoreOf readItem)) before c := by
  rcases c.take?_cases (.mark .comma) with ⟨comma, c₁, hcomma, htakes, htake⟩ | ⟨-, htake⟩
  · refine .passed (by rw [itemLoop, htake]) (tokens_ne_nil_of_sees htakes.sees) ?_
    rw [readMoreOf, htake]
    refine Attempt.outcome_bind_eq fun item c₂ hitem => ?_
    exact Attempt.outcome_bind fun rest c₃ hrest =>
      congrArg (fun list => Except.ok (list, c₃)) (List.append_cons before (comma.leaf, item) rest)
  · refine .ended (by rw [itemLoop, htake]) ?_
    rw [readMoreOf, htake]
    exact congrArg (fun list => Except.ok (list, c)) (List.append_nil before)

/-- Behind its first item, a list goes on as the items after their commas do. -/
theorem run_listLoop_some (first : Tree) (passes : Nat) (before : List (Tree × Tree)) (c : Cursor) :
    (listLoop readItem).run passes (some ⟨first, before⟩) c =
      ((itemLoop readItem).run passes before c).map
        (·.map fun stage => (some ⟨first, stage.1⟩, stage.2)) := by
  induction passes generalizing before c with
  | zero =>
    rw [Loop.run, Loop.run, listLoop]
    cases itemLoop readItem before c <;> rfl
  | succ passes ih =>
    rw [Loop.run, Loop.run, listLoop]
    cases itemLoop readItem before c with
    | none => rfl
    | some pass =>
      cases pass with
      | error refusal => rfl
      | ok reading => exact ih reading.value reading.next

/-- Lists are read by a loop. -/
theorem run_listLoop (c : Cursor) :
    (listLoop readItem).run (max 1 c.remaining) none c =
      some (Attempt.outcome some (c.readListOf readItem)) := by
  obtain ⟨passes, hpasses⟩ : ∃ passes, max 1 c.remaining = passes + 1 :=
    ⟨max 1 c.remaining - 1, by omega⟩
  rw [hpasses, Loop.run, listLoop, readListOf]
  cases readItem c with
  | error refusal => rfl
  | ok reading =>
    obtain ⟨first, c₁, hfirst⟩ := reading
    have hrest : c₁.remaining ≤ passes := by omega
    refine (run_listLoop_some readItem first passes [] c₁).trans ?_
    rw [Loop.run_eq (itemLoop_unrolls readItem) passes [] c₁ hrest]
    change some _ = some (Attempt.outcome some (c₁.readMoreOf readItem >>= _))
    cases c₁.readMoreOf readItem <;> rfl

end

/-- Every loop comes to its end within as many passes as there are tokens left, with the outcome of
its reader. A list makes its first pass also where no token is left. -/
structure LoopsEnd (c : Cursor) : Prop where
  statements : ∀ before, statementLoop.run c.remaining before c =
    some (Attempt.outcome (before ++ ·) c.readStatements)
  elements : ∀ before, elementLoop.run c.remaining before c =
    some (Attempt.outcome (before ++ ·) c.readElements)
  operations : ∀ level left, (operationLoop level).run c.remaining left c =
    some (Attempt.outcome id (c.readOperations level left))
  accesses : ∀ subject, accessLoop.run c.remaining subject c =
    some (Attempt.outcome id (c.readAccesses subject))
  items : ∀ readItem before, (itemLoop readItem).run c.remaining before c =
    some (Attempt.outcome (before ++ ·) (c.readMoreOf readItem))
  lists : ∀ readItem, (listLoop readItem).run (max 1 c.remaining) none c =
    some (Attempt.outcome some (c.readListOf readItem))

/-- All loops end. -/
theorem loopsEnd (c : Cursor) : c.LoopsEnd where
  statements before := Loop.run_eq statementLoop_unrolls _ before c (Nat.le_refl _)
  elements before := Loop.run_eq elementLoop_unrolls _ before c (Nat.le_refl _)
  operations level left := Loop.run_eq (operationLoop_unrolls level) _ left c (Nat.le_refl _)
  accesses subject := Loop.run_eq accessLoop_unrolls _ subject c (Nat.le_refl _)
  items readItem before := Loop.run_eq (itemLoop_unrolls readItem) _ before c (Nat.le_refl _)
  lists readItem := run_listLoop readItem c

-- A list that begins with three commas and is never closed needs a pass for each of them.
example :
    let comma : Token := ⟨.mark .comma, ",", ⟨0, 1⟩, false⟩
    let c : Cursor := ⟨[comma, comma, comma], 3, false, 0⟩
    elementLoop.run 2 [] c = none ∧ (elementLoop.run 3 [] c).isSome = true := by
  decide

end Cursor

end TreeScript
