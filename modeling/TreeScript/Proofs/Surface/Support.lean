import TreeScript.Proofs.Surface.Syntax

/-!
# What can be lowered

A form of the surface syntax means operations exactly when nothing in it is an obstacle. So the two
readings of a script, what it means and what is wrong with it, never contradict one another and
never leave a script without either.
-/

namespace TreeScript.Surface

/-- Whether a sequence of readings has a result, when that of the second does not depend on the
result of the first. -/
theorem isSome_bind_iff {α β : Type} {first : Option α} {next : α → Option β} {later : Prop}
    (h : ∀ result, (next result).isSome ↔ later) :
    (first >>= next).isSome ↔ first.isSome ∧ later := by
  cases first with
  | none => exact ⟨fun h => (nomatch h), fun h => (nomatch h.1)⟩
  | some result => exact (h result).trans ⟨fun hlater => ⟨rfl, hlater⟩, fun hboth => hboth.2⟩

/-- A result is there if what it is made of is. -/
theorem isSome_bind_some_iff {α β : Type} {first : Option α} {finish : α → β} :
    (first >>= fun result => some (finish result)).isSome ↔ first.isSome := by
  cases first <;> exact Iff.rfl

/-- Nothing is in the way if the test passes. -/
@[simp] theorem demand_eq_nil_iff {passes : Bool} {obstacle : Obstacle} :
    demand passes obstacle = [] ↔ passes = true := by
  cases passes <;> simp [demand]

/-- A decimal has a floating-point literal exactly if its double is finite. -/
theorem isSome_floating?_iff {decimal : Decimal} :
    (floating? decimal).isSome ↔ (Decoded.ofFloat decimal.toFloat).IsFinite := by
  rw [floating?]
  split
  case isTrue hnarrow =>
    exact ⟨fun _ => Decimal.isFinite_toFloat_of_toFloat32 hnarrow, fun _ => rfl⟩
  case isFalse => exact Option.isSome_ite

/-- A number has a literal exactly if its double is finite: that of an integer which 64 bits hold
always is. -/
theorem isSome_numberLiteral?_iff (number : WrittenNumber) :
    (numberLiteral? number).isSome ↔
      (Decoded.ofFloat (number.decimal .absent).toFloat).IsFinite := by
  have hwhole : number.IsWhole → number.decimal .absent = ⟨false, number.whole.value, 0⟩ := by
    rintro ⟨hfraction, hexponent⟩
    simp only [WrittenNumber.decimal, hfraction, hexponent, DigitRun.value_append]
    simp [WrittenNumber.fractionDigits, WrittenNumber.exponentValue, DigitRun.value,
      WrittenSign.isNegative]
  have hfinite (hinteger : number.IsWhole) (hbound : number.whole.value < 2 ^ 63) :
      (Decoded.ofFloat (number.decimal .absent).toFloat).IsFinite := by
    rw [hwhole hinteger]
    exact Decimal.isFinite_toFloat_of_integer rfl (Nat.le_of_lt hbound)
  simp only [numberLiteral?]
  split
  case isTrue hnarrow => exact ⟨fun _ => hfinite hnarrow.1 (by omega), fun _ => rfl⟩
  case isFalse =>
    split
    case isTrue hwide => exact ⟨fun _ => hfinite hwide.1 hwide.2, fun _ => rfl⟩
    case isFalse => exact isSome_floating?_iff

/-- A constant has a value if nothing is in its way. -/
theorem Constant.isSome_value?_iff (constant : Constant) :
    constant.value?.isSome ↔ constant.obstacles = [] := by
  cases constant with
  | number number =>
    rw [value?, obstacles, demand_eq_nil_iff, decide_eq_true_iff]
    exact isSome_numberLiteral?_iff number
  | radixNumber => simp [value?, obstacles]
  | quoted | nothing | truth => simp [value?, obstacles]

-- Obstacles add up as the parts of a form do, so both sides split in the same places.

mutual

/-- An expression has a meaning if nothing is in its way. -/
theorem Expression.isSome_lower?_iff (expression : Expression) :
    expression.lower?.isSome ↔ expression.obstacles = [] := by
  cases expression with
  | name text => simp [Expression.lower?, Expression.obstacles]
  | constant constant => exact isSome_bind_some_iff.trans constant.isSome_value?_iff
  | list elements => exact isSome_bind_some_iff.trans elements.isSome_lower?_iff
  | parenthesized inner => exact inner.isSome_lower?_iff
  | member object name => exact isSome_bind_some_iff.trans object.isSome_lower?_iff
  | index object position =>
    rw [Expression.obstacles, List.append_eq_nil_iff, ← object.isSome_lower?_iff,
      ← position.isSome_lower?_iff]
    exact isSome_bind_iff fun _ => isSome_bind_some_iff
  | call callee arguments =>
    rw [Expression.obstacles, List.append_eq_nil_iff, ← callee.isSome_lower?_iff,
      ← isSome_lowerAll?_iff arguments]
    exact isSome_bind_iff fun _ => isSome_bind_some_iff
  | stepBefore step operand =>
    rw [Expression.obstacles, List.append_eq_nil_iff, demand_eq_nil_iff,
      ← operand.isSome_place?_iff]
    exact isSome_bind_some_iff
  | stepAfter operand step =>
    rw [Expression.obstacles, List.append_eq_nil_iff, demand_eq_nil_iff,
      ← operand.isSome_place?_iff]
    exact isSome_bind_some_iff
  | unary operator operand => exact isSome_bind_some_iff.trans operand.isSome_lower?_iff
  | binary left sign right =>
    rw [Expression.obstacles, List.append_eq_nil_iff, List.append_eq_nil_iff, demand_eq_nil_iff,
      ← left.isSome_lower?_iff, ← right.isSome_lower?_iff]
    exact isSome_bind_iff fun _ => isSome_bind_iff fun _ => isSome_bind_some_iff
  | assign target value =>
    rw [Expression.obstacles, List.append_eq_nil_iff, List.append_eq_nil_iff, demand_eq_nil_iff,
      ← target.isSome_place?_iff, ← value.isSome_lower?_iff]
    exact isSome_bind_iff fun _ => isSome_bind_some_iff
  | combine target sign value =>
    rw [Expression.obstacles, List.append_eq_nil_iff, List.append_eq_nil_iff,
      List.append_eq_nil_iff, demand_eq_nil_iff, demand_eq_nil_iff, ← target.isSome_place?_iff,
      ← value.isSome_lower?_iff]
    exact isSome_bind_iff fun _ => isSome_bind_iff fun _ => isSome_bind_some_iff

/-- An expression has a place if it is one and nothing is in its way. -/
theorem Expression.isSome_place?_iff (expression : Expression) :
    expression.place?.isSome ↔ expression.isPlace = true ∧ expression.obstacles = [] := by
  cases expression with
  | name text => simp [Expression.place?, Expression.isPlace, Expression.obstacles]
  | member object name =>
    rw [Expression.obstacles, ← object.isSome_lower?_iff]
    exact isSome_bind_some_iff.trans ⟨fun h => ⟨rfl, h⟩, fun h => h.2⟩
  | index object position =>
    rw [Expression.obstacles, List.append_eq_nil_iff, ← object.isSome_lower?_iff,
      ← position.isSome_lower?_iff]
    exact (isSome_bind_iff fun _ => isSome_bind_some_iff).trans ⟨fun h => ⟨rfl, h⟩, fun h => h.2⟩
  | _ => exact ⟨fun h => (nomatch h), fun h => (nomatch h.1)⟩

/-- A sequence has a meaning if nothing is in its way. -/
theorem Sequence.isSome_lower?_iff (sequence : Sequence) :
    sequence.lower?.isSome ↔ sequence.obstacles = [] := by
  obtain ⟨first, rest⟩ := sequence
  cases rest with
  | nil => simpa [Sequence.lower?, Sequence.obstacles, allObstacles] using first.isSome_lower?_iff
  | cons second rest => simp [Sequence.lower?, Sequence.obstacles]

/-- Elements have meanings if nothing is in their way. -/
theorem Elements.isSome_lower?_iff (elements : Elements) :
    elements.lower?.isSome ↔ elements.obstacles = [] := by
  cases elements with
  | none => simp [Elements.lower?, Elements.obstacles]
  | skip rest => exact rest.isSome_lower?_iff
  | last value => exact isSome_bind_some_iff.trans value.isSome_lower?_iff
  | next value rest =>
    rw [Elements.obstacles, List.append_eq_nil_iff, ← value.isSome_lower?_iff,
      ← rest.isSome_lower?_iff]
    exact isSome_bind_iff fun _ => isSome_bind_some_iff

/-- Expressions have meanings if nothing is in their way. -/
theorem isSome_lowerAll?_iff (expressions : List Expression) :
    (lowerAll? expressions).isSome ↔ allObstacles expressions = [] := by
  cases expressions with
  | nil => simp [lowerAll?, allObstacles]
  | cons expression rest =>
    rw [allObstacles, List.append_eq_nil_iff, ← expression.isSome_lower?_iff,
      ← isSome_lowerAll?_iff rest]
    exact isSome_bind_iff fun _ => isSome_bind_some_iff

end

/-- A declaration has a value if nothing is in its way. -/
theorem Declarator.isSome_value?_iff (declarator : Declarator) :
    declarator.value?.isSome ↔ declarator.obstacles = [] := by
  obtain ⟨name, initial⟩ := declarator
  cases initial with
  | none => simp [value?, obstacles]
  | some value => exact value.isSome_lower?_iff

mutual

/-- A statement has a meaning if nothing is in its way. -/
theorem Statement.isSome_lower?_iff (position : Position) (statement : Statement) :
    (statement.lower? position).isSome ↔ statement.obstacles = [] := by
  cases statement with
  | block body => exact isSome_bind_some_iff.trans (isSome_lowerStatements?_iff body)
  | declaration declarer first rest ending =>
    cases declarer with
    | varWord =>
      cases rest with
      | nil =>
        refine isSome_bind_some_iff.trans (first.isSome_value?_iff.trans ?_)
        simp [Statement.obstacles]
      | cons second rest => simp [Statement.lower?, Statement.obstacles]
    | letWord | constWord => simp [Statement.lower?, Statement.obstacles]
  | empty => simp [Statement.lower?, Statement.obstacles]
  | expression sequence ending => exact isSome_bind_some_iff.trans sequence.isSome_lower?_iff
  | ifThen condition consequence =>
    rw [Statement.obstacles, List.append_eq_nil_iff, ← condition.isSome_lower?_iff,
      ← consequence.isSome_lower?_iff .branch]
    exact isSome_bind_iff fun _ => isSome_bind_some_iff
  | ifThenElse condition consequence alternative =>
    rw [Statement.obstacles, List.append_eq_nil_iff, List.append_eq_nil_iff,
      ← condition.isSome_lower?_iff, ← consequence.isSome_lower?_iff .branch,
      ← alternative.isSome_lower?_iff .branch, and_assoc]
    exact isSome_bind_iff fun _ => isSome_bind_iff fun _ => isSome_bind_some_iff
  | loop condition body => simp [Statement.lower?, Statement.obstacles]
  | giveBack value ending =>
    cases value with
    | none => simp [Statement.lower?, Statement.obstacles]
    | some sequence => exact isSome_bind_some_iff.trans sequence.isSome_lower?_iff
  | function name parameters body =>
    rw [Statement.obstacles, List.append_eq_nil_iff, demand_eq_nil_iff, decide_eq_true_eq,
      ← isSome_lowerStatements?_iff body, Statement.lower?]
    split
    · rename_i hnodup
      exact isSome_bind_some_iff.trans ⟨fun h => ⟨hnodup, h⟩, fun h => h.2⟩
    · rename_i hrepeats
      exact ⟨fun h => (nomatch h), fun h => absurd h.1 hrepeats⟩

/-- Statements have meanings if nothing is in their way. -/
theorem isSome_lowerStatements?_iff (statements : List Statement) :
    (lowerStatements? statements).isSome ↔ statementObstacles statements = [] := by
  cases statements with
  | nil => simp [lowerStatements?, statementObstacles]
  | cons statement rest =>
    rw [statementObstacles, List.append_eq_nil_iff, ← statement.isSome_lower?_iff .among,
      ← isSome_lowerStatements?_iff rest]
    exact isSome_bind_iff fun _ => isSome_bind_some_iff

end

/-- A script means a program exactly when nothing in it is an obstacle. -/
theorem Script.isSome_lower?_iff (script : Script) :
    script.lower?.isSome ↔ script.obstacles = [] :=
  isSome_bind_some_iff.trans (isSome_lowerStatements?_iff script.body)

end TreeScript.Surface
