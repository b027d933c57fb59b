import TreeScript.Proofs.Surface.Lowered

/-!
# Lowering assignments and steps

What the trees of assignments, combined assignments and steps are lowered to, given what their
parts are lowered to. The trees are any that are accepted, wherever they come from: only the texts
of the signs count, and the state is handed through from part to part.
-/

namespace TreeScript

/-- The signs of operators that are combined with assignments stand for nothing else between two
parts. -/
theorem BinaryOperator.symbol_of_compoundable :
    ∀ operator ∈ compoundable, operator.symbol ≠ "." ∧ operator.symbol ≠ "=" ∧
      ofSymbol? operator.symbol = some operator := by
  decide

/-- A compoundable operator is found by its symbol with an equals sign. -/
theorem BinaryOperator.ofCompound?_symbol :
    ∀ operator ∈ compoundable, ofCompound? (operator.symbol ++ "=") = some operator := by
  decide

namespace Lowering

open Surface (value_of_visit)

variable {state between after : LoweringState} {span : Span} {operator : BinaryOperator}

/-- An expression is lowered by the number of its parts. -/
theorem value_singleExpression (children : List Tree) (span : Span) :
    value (.node .singleExpression children span) =
      lowerExpression (.node .singleExpression children span) children := by
  refine value_of_visit ?_
  rw [visit.eq_def]

/-- Where values are wanted, the mode is that of values. -/
theorem mode_apply (hmode : state.modes.headD .value = .value) :
    mode state = (.ok .value, state) := by
  rw [← hmode]
  rfl

/-- An expression of two parts is lowered as a pair. -/
theorem value_pair (hmode : state.modes.headD .value = .value) (first second : Tree) (span : Span) :
    value (.node .singleExpression [first, second] span) state =
      lowerPair (.node .singleExpression [first, second] span) first second state := by
  rw [value_singleExpression, lowerExpression, bind_apply, mode_apply hmode]
  rfl

/-- An expression of three parts is lowered as a triple. -/
theorem value_triple (hmode : state.modes.headD .value = .value) (left middle right : Tree)
    (span : Span) :
    value (.node .singleExpression [left, middle, right] span) state =
      lowerTriple (.node .singleExpression [left, middle, right] span) left middle right state := by
  rw [value_singleExpression, lowerExpression, bind_apply, mode_apply hmode]
  rfl

/-! ## Targets -/

section

variable {tree : Tree} {place : Target} {name : String}

/-- Only nodes are targets. -/
theorem isLeaf_of_target (h : target tree state = (.ok place, after)) : tree.isLeaf = false := by
  cases tree with
  | node => rfl
  | leaf category text span =>
    rw [target, targetShape.eq_def] at h
    cases h

/-- What is lowered to a place is not a leaf. -/
theorem isText_of_target (h : target tree state = (.ok place, after)) (text : String) :
    tree.isText text = false := by
  rw [Tree.isText, isLeaf_of_target h, Bool.false_and]

/-- A check changes no state. -/
theorem lift_eq_ok {α : Type} {check : Except CompileError α} {result : α}
    (h : (liftM check : Lowering α) state = (.ok result, after)) :
    check = .ok result ∧ after = state := by
  cases check with
  | error error => cases h
  | ok found =>
    cases h
    exact ⟨rfl, rfl⟩

/-- A check on the rule passes for that rule only. -/
theorem rule?_of_requireRule {parent : Tree} {rule : Rule} {index : Nat}
    (h : tree.requireRule rule index parent = .ok ()) : tree.rule? = some rule := by
  by_contra hrule
  rw [Tree.requireRule, if_neg hrule] at h
  cases h

/-- What a tree is like that is lowered to a place, with what its parts are lowered to one after the
other. -/
inductive Shapes (state : LoweringState) : Tree → Target → LoweringState → Prop
  | named {inner : Tree} {span : Span} {name : String} : inner.rule? = some .identifier →
      inner.identifierName = .ok name →
      Shapes state (.node .singleExpression [inner] span) (.named name) state
  | member {object dot name : Tree} {span : Span} {operation : Operation} {text : String}
      {after : LoweringState} : dot.isText "." = true →
      inMode .value (value object) state = (.ok operation, after) →
      name.rule? = some .identifierName → name.targetMemberName = .ok text →
      Shapes state (.node .singleExpression [object, dot, name] span) (.member operation text) after
  | index {object left index right : Tree} {span : Span} {operation position : Operation}
      {between after : LoweringState} : (left.isText "[" && right.isText "]") = true →
      inMode .value (value object) state = (.ok operation, between) →
      index.rule? = some .expressionSequence →
      inMode .value (value index) between = (.ok position, after) →
      Shapes state (.node .singleExpression [object, left, index, right] span)
        (.index operation position) after

/-- What is lowered to a place has one of three shapes. -/
theorem shapes_of_targetShape (h : targetShape tree state = (.ok place, after)) :
    Shapes state tree place after := by
  have hmode : mode state = (.ok (state.modes.headD .value), state) := rfl
  rw [targetShape.eq_def, bind_apply, hmode] at h
  dsimp only at h
  split at h
  · cases h
  split at h
  · split at h
    · split at h
      · rename_i hrule
        obtain ⟨name, _, hlift, hreturn⟩ := bind_apply_eq_ok.mp h
        obtain ⟨hname, rfl⟩ := lift_eq_ok hlift
        cases hreturn
        exact .named hrule hname
      · cases h
    · split at h
      · rename_i hdot
        obtain ⟨object, _, hobject, hrest⟩ := bind_apply_eq_ok.mp h
        obtain ⟨_, _, hcheck, hlast⟩ := bind_apply_eq_ok.mp hrest
        obtain ⟨hrule, rfl⟩ := lift_eq_ok hcheck
        obtain ⟨name, _, hlift, hreturn⟩ := bind_apply_eq_ok.mp hlast
        obtain ⟨hname, rfl⟩ := lift_eq_ok hlift
        cases hreturn
        exact .member hdot hobject (rule?_of_requireRule hrule) hname
      · cases h
    · split at h
      · rename_i hbrackets
        obtain ⟨object, _, hobject, hrest⟩ := bind_apply_eq_ok.mp h
        obtain ⟨_, _, hcheck, hlast⟩ := bind_apply_eq_ok.mp hrest
        obtain ⟨hrule, rfl⟩ := lift_eq_ok hcheck
        obtain ⟨position, _, hposition, hreturn⟩ := bind_apply_eq_ok.mp hlast
        cases hreturn
        exact .index hbrackets hobject (rule?_of_requireRule hrule) hposition
      · cases h
    · cases h
  · cases h

/-- The parts of a target are lowered in the mode of targets, which is left after. -/
theorem shapes_of_target (h : target tree state = (.ok place, after)) :
    ∃ final, Shapes { state with modes := .target :: state.modes } tree place final ∧
      after = { final with modes := final.modes.tail } := by
  rw [target] at h
  unfold inMode at h
  rcases hshape : targetShape tree { state with modes := .target :: state.modes } with
    ⟨result, final⟩
  simp only [hshape] at h
  obtain ⟨rfl, rfl⟩ := h
  exact ⟨final, shapes_of_targetShape hshape, rfl⟩

/-- An identifier is lowered to reading its name. -/
theorem value_identifierNode {tree : Tree} (hrule : tree.rule? = some .identifier)
    (hname : tree.identifierName = .ok name) : value tree = pure (.getVariable name) := by
  cases tree with
  | leaf => cases hrule
  | node rule children span =>
    cases hrule
    refine value_of_visit ?_
    rw [visit.eq_def]
    dsimp only
    rw [hname]
    rfl

/-- An expression made of an identifier is lowered to reading its name. -/
theorem value_of_identifier {inner : Tree} {span : Span}
    (hmode : state.modes.headD .value = .value) (hrule : inner.rule? = some .identifier)
    (hname : inner.identifierName = .ok name) :
    value (.node .singleExpression [inner] span) state = (.ok (.getVariable name), state) := by
  rw [value_singleExpression, lowerExpression, bind_apply, mode_apply hmode]
  change primary inner state = _
  rw [primary.eq_def, hrule, value_identifierNode hrule hname]
  rfl

/-- What is lowered to a name as a target is lowered to reading the name as a value, and the state
stays as it is. -/
theorem value_of_target_named (hmode : state.modes.headD .value = .value)
    (h : target tree state = (.ok (.named name), after)) :
    after = state ∧ value tree state = (.ok (.getVariable name), state) := by
  obtain ⟨final, hshape, rfl⟩ := shapes_of_target h
  cases hshape with
  | named hrule hname => exact ⟨rfl, value_of_identifier hmode hrule hname⟩

end

/-! ## Steps -/

section

variable {sign operand : Tree} {place : Target}

/-- A sign in front steps the place and yields the new value. -/
theorem value_stepBefore (hmode : state.modes.headD .value = .value) (hleaf : sign.isLeaf = true)
    (hsign : stepOperator? sign.text = some operator)
    (hplace : target operand state = (.ok place, after)) :
    value (.node .singleExpression [sign, operand] span) state =
      (.ok (place.stepBefore operator), after) := by
  rw [value_pair hmode, lowerPair.eq_def, if_pos hleaf, hsign]
  change (target operand >>= _) state = _
  rw [bind_apply, hplace]
  rfl

/-- A sign behind steps the place and yields the old value. -/
theorem value_stepAfter (hmode : state.modes.headD .value = .value) (hleaf : sign.isLeaf = true)
    (hsign : stepOperator? sign.text = some operator)
    (hplace : target operand state = (.ok place, after)) :
    value (.node .singleExpression [operand, sign] span) state =
      (.ok (place.stepAfter operator), after) := by
  cases sign with
  | node => cases hleaf
  | leaf category text leafSpan =>
    change stepOperator? text = some operator at hsign
    rw [value_pair hmode, lowerPair.eq_def, isLeaf_of_target hplace, if_neg Bool.false_ne_true]
    simp only [hsign]
    rw [bind_apply, hplace]
    rfl

end

/-! ## Assignments and operations -/

section

variable {left sign right : Tree} {place : Target} {operation : Operation}

/-- A compound assignment combines the place with the value. -/
theorem value_combine (hmode : state.modes.headD .value = .value)
    (hrule : sign.rule? = some .assignmentOperator)
    (hsign : BinaryOperator.ofCompound? sign.text = some operator)
    (hplace : target left state = (.ok place, between))
    (hright : value right between = (.ok operation, after)) :
    value (.node .singleExpression [left, sign, right] span) state =
      (.ok (place.combine operator operation), after) := by
  rw [value_triple hmode, lowerTriple, isText_of_target hplace, Bool.false_and,
    if_neg Bool.false_ne_true, if_pos hrule, hsign]
  change (target left >>= _) state = _
  rw [bind_apply, hplace]
  change (value right >>= _) between = _
  rw [bind_apply, hright]
  rfl

/-- A leaf between two parts is a sign, and the first part tells parentheses apart. -/
theorem lowerTriple_leaf (hleft : left.isText "(" = false) (hleaf : sign.isLeaf = true)
    (node : Tree) :
    lowerTriple node left sign right =
      (if sign.text = "." then do
        let object ← value left
        return .getMember object (← right.memberName)
      else if sign.text = "=" then do
        let place ← target left
        let operand ← value right
        return place.assign operand
      else (BinaryOperator.ofSymbol? sign.text).elim
          (throw (node.unsupported (.operator sign.text))) fun operator => do
        let leftValue ← value left
        let rightValue ← value right
        return .binary operator leftValue rightValue) := by
  have hrule : sign.rule? ≠ some .assignmentOperator := by
    rw [Option.isNone_iff_eq_none.mp hleaf]
    exact (Option.some_ne_none _).symm
  rw [lowerTriple, hleft, Bool.false_and, if_neg Bool.false_ne_true, if_neg hrule, hleaf,
    Bool.not_true, if_neg Bool.false_ne_true]
  cases BinaryOperator.ofSymbol? sign.text <;> rfl

/-- An assignment writes the value to the place. -/
theorem value_assign (hmode : state.modes.headD .value = .value) (hleaf : sign.isLeaf = true)
    (hsign : sign.text = "=") (hplace : target left state = (.ok place, between))
    (hright : value right between = (.ok operation, after)) :
    value (.node .singleExpression [left, sign, right] span) state =
      (.ok (place.assign operation), after) := by
  rw [value_triple hmode, lowerTriple_leaf (isText_of_target hplace _) hleaf, hsign,
    if_neg (by decide), if_pos rfl, bind_apply, hplace]
  change (value right >>= _) between = _
  rw [bind_apply, hright]
  rfl

/-- An operator between two operands is applied to their values. -/
theorem value_binary {first second : Operation} (hmode : state.modes.headD .value = .value)
    (hoperator : operator ∈ BinaryOperator.compoundable) (hleaf : sign.isLeaf = true)
    (hsign : sign.text = operator.symbol) (hparen : left.isText "(" = false)
    (hleft : value left state = (.ok first, between))
    (hright : value right between = (.ok second, after)) :
    value (.node .singleExpression [left, sign, right] span) state =
      (.ok (.binary operator first second), after) := by
  obtain ⟨hdot, hassign, hfound⟩ := BinaryOperator.symbol_of_compoundable operator hoperator
  rw [value_triple hmode, lowerTriple_leaf hparen hleaf, hsign, if_neg hdot, if_neg hassign, hfound]
  change (value left >>= _) state = _
  rw [bind_apply, hleft]
  change (value right >>= _) between = _
  rw [bind_apply, hright]
  rfl

end

end Lowering

end TreeScript
