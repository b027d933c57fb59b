import TreeScript.Proofs.Lowering.Agreement
import TreeScript.Proofs.Lowering.Restoration
import TreeScript.Proofs.Surface.Syntax

/-!
# Lowering agrees with the surface syntax

The tree of a script is lowered to what the script means, and where the script means nothing, the
tree is refused. No rule of well-formed trees is found broken but the one against repeated
parameters.

Each form of the surface syntax is followed through the lowering function for its tree. The checks
on the way pass because of how trees are written; what is left is the reading of the form in the
option monad.
-/

namespace TreeScript.Surface

open Lowering

variable {rule : Rule} {children : List Tree} {inner : Tree}

/-! ## Written trees pass the checks -/

/-- A node has the rule it is written with. -/
@[simp] theorem rule?_node (rule : Rule) (children : List Tree) :
    (node rule children).rule? = some rule := rfl

/-- A node is no leaf. -/
@[simp] theorem isLeaf_node (rule : Rule) (children : List Tree) :
    (node rule children).isLeaf = false := rfl

/-- A node is no token, whatever its text. -/
@[simp] theorem isText_node (rule : Rule) (children : List Tree) (text : String) :
    (node rule children).isText text = false := rfl

/-- A mark has no rule. -/
@[simp] theorem rule?_mark (sign : Mark) : (mark sign).rule? = none := rfl

/-- A mark is a leaf. -/
@[simp] theorem isLeaf_mark (sign : Mark) : (mark sign).isLeaf = true := rfl

/-- A mark has the text of its spelling. -/
theorem text_mark (sign : Mark) : (mark sign).text = sign.spelling := rfl

/-- A mark is told by its spelling. -/
@[simp] theorem isText_mark (sign : Mark) (text : String) :
    (mark sign).isText text = (sign.spelling == text) := rfl

/-- A node passes the check for its rule. -/
theorem requireRule_node (rule : Rule) (children : List Tree) (index : Nat) (parent : Tree) :
    (node rule children).requireRule rule index parent = .ok () := if_pos rfl

/-- An opening brace passes the check for it. -/
theorem requireText_openBrace : (mark .openBrace).requireText "\x7b" = .ok () := rfl

/-- A closing brace passes the check for it. -/
theorem requireText_closeBrace : (mark .closeBrace).requireText "\x7d" = .ok () := rfl

/-- The operator of an assignment has the text of its sign. -/
theorem text_assignmentOperator (sign : Mark) :
    (node .assignmentOperator [mark sign]).text = sign.spelling := by
  change sign.spelling ++ "" = _
  exact String.append_empty

namespace MemberName

/-- A member's name is read off its tree. -/
theorem memberName_tree (name : MemberName) : name.tree.memberName = .ok name.text := by
  cases name with
  | name text => rfl
  | word reserved => rfl

/-- It is read off in a target, too. -/
theorem targetMemberName_tree (name : MemberName) :
    name.tree.targetMemberName = .ok name.text := by
  cases name with
  | name text => rfl
  | word reserved =>
    change Except.ok (Tree.joinedText (Surface.word reserved) ++ "") = _
    rw [String.append_empty]
    cases reserved <;> rfl

/-- The tree of a member's name passes the check for names. -/
theorem requireRule_tree (name : MemberName) (index : Nat) (parent : Tree) :
    name.tree.requireRule .identifierName index parent = .ok () := by
  cases name with
  | name text => rfl
  | word reserved => rfl

end MemberName

/-- Every expression is written as a node of one rule. -/
theorem exists_tree_of_expression (expression : Expression) :
    ∃ children, expression.tree = node .singleExpression children := by
  cases expression <;> exact ⟨_, by rw [Expression.tree]⟩

/-- Every sequence is written as a node of one rule. -/
theorem exists_tree_of_sequence (sequence : Sequence) :
    ∃ children, sequence.tree = node .expressionSequence children := by
  cases sequence
  exact ⟨_, by rw [Sequence.tree]⟩

/-- No expression is a leaf. -/
@[simp] theorem Expression.isLeaf_tree (expression : Expression) :
    expression.tree.isLeaf = false := by
  obtain ⟨children, h⟩ := exists_tree_of_expression expression
  rw [h, isLeaf_node]

/-- No expression is a token. -/
@[simp] theorem Expression.isText_tree (expression : Expression) (text : String) :
    expression.tree.isText text = false := by
  obtain ⟨children, h⟩ := exists_tree_of_expression expression
  rw [h, isText_node]

/-- No sequence is a token. -/
@[simp] theorem Sequence.isText_tree (sequence : Sequence) (text : String) :
    sequence.tree.isText text = false := by
  obtain ⟨children, h⟩ := exists_tree_of_sequence sequence
  rw [h, isText_node]

/-- A sequence passes the check for sequences. -/
@[simp] theorem Sequence.requireRule_tree (sequence : Sequence) (index : Nat) (parent : Tree) :
    sequence.tree.requireRule .expressionSequence index parent = .ok () := by
  obtain ⟨children, h⟩ := exists_tree_of_sequence sequence
  rw [h, requireRule_node]

/-! ## Signs have the operators they should have -/

/-- The sign of a step is read as its operator. -/
theorem stepOperator?_sign (step : Step) :
    stepOperator? step.sign.spelling = some step.operator := by
  cases step <;> rfl

/-- No sign before an operand is read as a step. -/
theorem stepOperator?_unarySign (operator : UnaryOperator) :
    stepOperator? (unarySign operator).spelling = none := by
  cases operator <;> rfl

/-- A sign before an operand is read as its operator. -/
theorem ofSymbol?_unarySign (operator : UnaryOperator) :
    UnaryOperator.ofSymbol? (unarySign operator).spelling = some operator := by
  cases operator <;> rfl

/-- A sign between operands is read as its operator, if it has one. -/
theorem ofSymbol?_sign (sign : InfixSign) :
    BinaryOperator.ofSymbol? sign.sign.spelling = sign.operator? := by
  rcases sign with operator | _ | _ | _ | _ | _
  · cases operator <;> rfl
  all_goals rfl

/-- A compound sign is read as its operator, if it has one. -/
theorem ofCompound?_sign (sign : CompoundSign) :
    BinaryOperator.ofCompound? sign.sign.spelling = sign.operator? := by
  cases sign <;> rfl

/-- No sign between operands reads as the mark of a member or of an assignment. -/
theorem spelling_sign_ne (sign : InfixSign) :
    sign.sign.spelling ≠ "." ∧ sign.sign.spelling ≠ "=" := by
  rcases sign with operator | _ | _ | _ | _ | _
  · cases operator <;> decide
  all_goals decide

/-! ## Literals -/

/-- Text in quotes is read as the text. -/
theorem unquote?_enclose (quote : Quote) (content : String) :
    Literal.unquote? (quote.enclose content) = some content := by
  have hlast : (content.toList ++ [quote.char]).getLast? = some quote.char :=
    List.getLast?_concat
  have hquote : (quote.char == '"' || quote.char == '\'') = true := by
    cases quote <;> rfl
  simp only [Literal.unquote?, Quote.enclose, String.toList_ofList, List.cons_append, hlast, hquote,
    beq_self_eq_true, Bool.and_self, if_true, List.dropLast_concat, String.ofList_toList]

/-- A numeral is read as the literal of its number. -/
theorem readNumber?_text (number : WrittenNumber) :
    Literal.readNumber? number.text = numberLiteral? number := by
  have hdecimal : Decimal.read? number.text = some (number.decimal .absent) :=
    Decimal.read?_eq_some_iff.mpr ⟨.absent, number, String.toList_ofList, rfl⟩
  have hinteger := Decimal.readInteger?_text number
  have hfloating : (Literal.readFloat? number.text <|> Literal.readDouble? number.text) =
      floating? (number.decimal .absent) := by
    simp only [Literal.readFloat?, Literal.readDouble?, hdecimal, floating?, Option.bind_eq_bind,
      Option.bind_some, ← Literal.matches_finite_iff]
    cases Decoded.ofFloat32 (number.decimal .absent).toFloat32 <;> rfl
  simp only [Literal.readNumber?, hfloating, numberLiteral?]
  by_cases hwhole : number.IsWhole
  · rw [if_pos hwhole] at hinteger
    simp only [Literal.readInt?_of_readInteger? hinteger,
      Literal.readLong?_of_readInteger? hinteger, hwhole, true_and]
    split
    · rfl
    · split <;> rfl
  · rw [if_neg hwhole] at hinteger
    simp only [Literal.readInt?, Literal.readLong?, hinteger, hwhole, false_and, if_false]
    rfl

/-- A number is read off its tree. -/
theorem accords_numericLiteral (text : String) :
    Accords (node .numericLiteral [token .number text]).numericLiteral
      (Literal.readNumber? text) := by
  have honly : (node .numericLiteral [token .number text]).onlyChild =
      .ok (token .number text) := rfl
  have hcategory : (token .number text).category? = some .decimalLiteral := rfl
  have htext : (token .number text).text = text := rfl
  unfold Tree.numericLiteral
  simp only [honly, bind, Except.bind, hcategory, htext]
  cases Literal.readNumber? text with
  | none => exact ⟨_, rfl, rfl⟩
  | some literal => rfl

/-- A quoted text is read off its tree. -/
theorem literal_quoted (quote : Quote) (content : String) (span around : Span) :
    (Tree.node .literal [.leaf (.ofKind .string) (quote.enclose content) span] around).literal =
      .ok (.string content) := by
  let leaf : Tree := .leaf (.ofKind .string) (quote.enclose content) span
  have honly : (Tree.node .literal [leaf] around).onlyChild = .ok leaf := rfl
  have hcategory : leaf.category? = some .stringLiteral := rfl
  have htext : leaf.text = quote.enclose content := rfl
  change (Tree.node .literal [leaf] around).literal = _
  unfold Tree.literal
  simp only [honly, bind, Except.bind, hcategory, htext, unquote?_enclose]
  rfl

/-- A constant is read off its tree. -/
theorem Constant.accords_literal (constant : Constant) :
    Accords (node .literal [constant.tree]).literal constant.value? := by
  rcases constant with number | ⟨radix, text⟩ | ⟨quote, content⟩ | _ | value
  · rw [Constant.value?, ← readNumber?_text]
    exact accords_numericLiteral number.text
  · exact ⟨_, rfl, rfl⟩
  · exact literal_quoted quote content _ _
  · rfl
  · cases value <;> rfl

/-! ## Expressions -/

/-- A visit that yields a value settles the value. -/
theorem value_of_visit {tree : Tree} {step : Lowering Operation}
    (h : visit tree = some <$> step) : value tree = step := by
  rw [value, h]
  simp only [bind_map_left, bind_pure]

/-- The value of an expression is that of its parts. -/
theorem value_expression (children : List Tree) :
    value (node .singleExpression children) =
      lowerExpression (node .singleExpression children) children := by
  refine value_of_visit ?_
  rw [visit.eq_def]
  rfl

/-- One expression in sequence has its own value. -/
theorem value_sequence (inner : Tree) :
    value (node .expressionSequence [inner]) = value inner := by
  refine value_of_visit ?_
  rw [visit.eq_def]
  change some <$> lowerSequence _ [inner] = _
  rw [lowerSequence]

/-- Arguments and elements have the value of what they wrap. -/
theorem value_wrapped (hrule : rule = .argument ∨ rule = .arrayElement) (inner : Tree) :
    value (node rule [inner]) = value inner := by
  refine value_of_visit ?_
  rw [visit.eq_def]
  obtain rfl | rfl := hrule
  all_goals
    change some <$> innerValue _ [inner] = _
    rw [innerValue]

/-- The value of a name is that of the variable. -/
theorem value_identifier (name : String) :
    value (identifier name) = pure (.getVariable name) := by
  refine value_of_visit ?_
  rw [visit.eq_def]
  rfl

/-- The value of a literal is the constant read. -/
theorem value_literal (constant : Constant) :
    value (node .literal [constant.tree]) =
      (do return .literal (← (node .literal [constant.tree]).literal)) := by
  refine value_of_visit ?_
  rw [visit.eq_def]
  simp only [map_bind, map_pure]
  rfl

/-- An operand is lowered for its value. -/
theorem primary_node (hrule : isPrimaryRule rule = true) (children : List Tree) :
    primary (node rule children) = value (node rule children) := by
  rw [primary.eq_def]
  exact if_pos hrule

section

-- An expression is lowered by the number of its parts, and never while a target is expected.

variable {outcome : Option Operation}

/-- An expression with one part. -/
theorem computes_one (h : Computes .value (primary inner) outcome) :
    Computes .value (value (node .singleExpression [inner])) outcome := by
  rw [value_expression, lowerExpression]
  exact Computes.guardMode (by decide) h

/-- An expression with two parts. -/
theorem computes_two {first second : Tree}
    (h : Computes .value (lowerPair (node .singleExpression [first, second]) first second)
      outcome) :
    Computes .value (value (node .singleExpression [first, second])) outcome := by
  rw [value_expression, lowerExpression]
  exact Computes.guardMode (by decide) h

/-- An expression with three parts. -/
theorem computes_three {left middle right : Tree}
    (h : Computes .value
      (lowerTriple (node .singleExpression [left, middle, right]) left middle right) outcome) :
    Computes .value (value (node .singleExpression [left, middle, right])) outcome := by
  rw [value_expression, lowerExpression]
  exact Computes.guardMode (by decide) h

end

/-- A comma between items does not count. -/
theorem lowerItems_comma (fault : Malformed) (rest : List Tree) :
    lowerItems fault (mark .comma :: rest) = lowerItems fault rest := by
  rw [lowerItems]
  rfl

/-- Items are lowered one by one. -/
theorem lowerItems_node (fault : Malformed) (rule : Rule) (children rest : List Tree) :
    lowerItems fault (node rule children :: rest) = (do
      let first ← value (node rule children)
      let others ← lowerItems fault rest
      return first :: others) := by
  rw [lowerItems]
  rfl

/-- The commas between items do not count. -/
theorem lowerItems_separated (fault : Malformed) (rule : Rule) (children rest : List Tree) :
    lowerItems fault (separated (node rule children :: rest)) = (do
      let first ← value (node rule children)
      let others ← lowerItems fault (separated rest)
      return first :: others) := by
  cases rest with
  | nil => exact lowerItems_node fault rule children []
  | cons next rest =>
    change lowerItems fault (node rule children :: mark .comma :: separated (next :: rest)) = _
    rw [lowerItems_node, lowerItems_comma]

/-- A sequence of several expressions is refused. -/
theorem computes_several (first second : Tree) (rest : List Tree) :
    Computes .value (value (node .expressionSequence (separated (first :: second :: rest))))
      none := by
  have hvisit : visit (node .expressionSequence (separated (first :: second :: rest))) =
      some <$> (throw ((node .expressionSequence (separated (first :: second :: rest))).unsupported
        .commaSequence) : Lowering Operation) := by
    rw [visit.eq_def]
    change some <$> lowerSequence _ (separated (first :: second :: rest)) = _
    rw [lowerSequence.eq_def]
    cases rest <;> rfl
  rw [value_of_visit hvisit]
  exact Computes.throw rfl

/-! ## Targets -/

/-- A target is lowered in a mode of its own, from wherever its value is needed. -/
theorem computes_target {tree : Tree} {outcome : Option Target}
    (h : Computes .target (targetShape tree) outcome) :
    Computes .value (target tree) outcome := by
  rw [target]
  exact Computes.inMode h

/-- No single part but a name is a target. -/
theorem target_one_refused (hrule : inner.rule? ≠ some .identifier) :
    Computes .value (target (node .singleExpression [inner])) none := by
  refine computes_target ?_
  rw [targetShape.eq_def]
  refine Computes.guardMode (by decide) ?_
  rw [if_neg hrule]
  exact Computes.throw rfl

/-- No two parts are a target. -/
theorem target_two_refused (first second : Tree) :
    Computes .value (target (node .singleExpression [first, second])) none := by
  refine computes_target ?_
  rw [targetShape.eq_def]
  exact Computes.guardMode (by decide) (Computes.throw rfl)

/-- No three parts but a member are a target. -/
theorem target_three_refused {left middle right : Tree} (hdot : middle.isText "." = false) :
    Computes .value (target (node .singleExpression [left, middle, right])) none := by
  refine computes_target ?_
  rw [targetShape.eq_def]
  refine Computes.guardMode (by decide) ?_
  rw [hdot, if_neg Bool.false_ne_true]
  exact Computes.throw rfl

/-- A name is a target. -/
theorem target_name (name : String) :
    Computes .value (target (node .singleExpression [identifier name])) (some (.named name)) := by
  refine computes_target ?_
  rw [targetShape.eq_def]
  exact Computes.guardMode (by decide) (Computes.pure (Target.named name))

/-- A member is a target. -/
theorem target_member {object : Tree} {outcome : Option Operation} (name : MemberName)
    (h : Computes .value (value object) outcome) :
    Computes .value (target (node .singleExpression [object, mark .dot, name.tree]))
      (outcome >>= fun operation => some (.member operation name.text)) := by
  refine computes_target ?_
  rw [targetShape.eq_def]
  refine Computes.guardMode (by decide) (Computes.bind (Computes.inMode h) fun operation => ?_)
  rw [name.requireRule_tree, name.targetMemberName_tree]
  exact Computes.pure _

/-- An index is a target. -/
theorem target_index {object position : Tree} {children : List Tree}
    {first second : Option Operation} (hposition : position = node .expressionSequence children)
    (hfirst : Computes .value (value object) first)
    (hsecond : Computes .value (value position) second) :
    Computes .value
      (target (node .singleExpression [object, mark .openBracket, position, mark .closeBracket]))
      (do
        let object ← first
        let position ← second
        return .index object position) := by
  refine computes_target ?_
  rw [targetShape.eq_def]
  refine Computes.guardMode (by decide) (Computes.bind (Computes.inMode hfirst) fun operation => ?_)
  subst hposition
  exact Computes.bind (Computes.inMode hsecond) fun _ => Computes.pure _

/-! ## Reading and writing places -/

/-- A step before a target stores what it computes. -/
theorem stepBefore_eq (place : Target) (operator : BinaryOperator) :
    place.stepBefore operator =
      store place (.binary operator (fetch place) (.literal (.int 1))) .mustExist := by
  cases place <;> rfl

/-- A step after a target gives back what was there. -/
theorem stepAfter_eq (place : Target) (operator : BinaryOperator) :
    place.stepAfter operator =
      .stackPop (store place
        (.binary operator (.stackPush (fetch place)) (.literal (.int 1))) .mustExist) := by
  cases place <;> rfl

/-- An assignment stores its operand. -/
theorem assign_eq (place : Target) (operand : Operation) :
    place.assign operand = store place operand .unconstrained := by
  cases place <;> rfl

/-- A compound assignment stores what it computes. -/
theorem combine_eq (place : Target) (operator : BinaryOperator) (operand : Operation) :
    place.combine operator operand =
      store place (.binary operator (fetch place) operand) .mustExist := by
  cases place <;> rfl

/-! ## Forms of expressions -/

section

variable {first second : Option Operation} {place : Option Target}

/-- A list is made of its elements. -/
theorem computes_list {items : List Tree} {outcome : Option (List Operation)}
    (h : Computes .value (lowerItems .elementSeparator items) outcome) :
    Computes .value (value (node .singleExpression [node .arrayLiteral
        [mark .openBracket, node .elementList items, mark .closeBracket]]))
      (outcome >>= fun operations => some (.createList operations)) := by
  refine computes_one ?_
  have hvalue : value (node .arrayLiteral
      [mark .openBracket, node .elementList items, mark .closeBracket]) =
      (do return .createList (← lowerItems .elementSeparator items)) := by
    refine value_of_visit ?_
    rw [visit.eq_def]
    change some <$> lowerArray _
      [mark .openBracket, node .elementList items, mark .closeBracket] = _
    rw [lowerArray.eq_def]
    rfl
  rw [primary_node rfl, hvalue]
  exact Computes.bind h fun _ => Computes.pure _

/-- Parentheses do not count. -/
theorem computes_parenthesized (sequence : Sequence)
    (h : Computes .value (value sequence.tree) first) :
    Computes .value
      (value (node .singleExpression [mark .openParen, sequence.tree, mark .closeParen]))
      first := by
  refine computes_three ?_
  have hparens : ((mark .openParen).isText "(" && (mark .closeParen).isText ")") = true := rfl
  rw [lowerTriple, if_pos hparens, sequence.requireRule_tree]
  exact h

/-- A member is read of its object. -/
theorem computes_member (object : Expression) (name : MemberName)
    (h : Computes .value (value object.tree) first) :
    Computes .value (value (node .singleExpression [object.tree, mark .dot, name.tree]))
      (first >>= fun operation => some (.getMember operation name.text)) := by
  refine computes_three ?_
  have hdot : (mark .dot).text = "." := rfl
  rw [lowerTriple, if_neg (by simp), if_neg (by decide), if_neg (by decide), if_pos hdot]
  refine Computes.bind h fun operation => ?_
  rw [name.memberName_tree]
  exact Computes.pure _

/-- An index is read of its object. -/
theorem computes_index (object : Expression) (position : Sequence)
    (hfirst : Computes .value (value object.tree) first)
    (hsecond : Computes .value (value position.tree) second) :
    Computes .value
      (value (node .singleExpression
        [object.tree, mark .openBracket, position.tree, mark .closeBracket]))
      (do
        let object ← first
        let position ← second
        return .getIndex object position) := by
  rw [value_expression, lowerExpression]
  refine Computes.guardMode (by decide) ?_
  have hbrackets : ((mark .openBracket).isText "[" && (mark .closeBracket).isText "]") = true := rfl
  rw [if_pos hbrackets]
  refine Computes.bind hfirst fun operation => ?_
  rw [position.requireRule_tree]
  exact Computes.bind hsecond fun _ => Computes.pure _

/-- A call is made of its callee and arguments. -/
theorem computes_call (callee : Expression) {items : List Tree}
    {outcome : Option (List Operation)} (h : Computes .value (value callee.tree) first)
    (hitems : Computes .value (lowerItems .argumentSeparator items) outcome) :
    Computes .value
      (value (node .singleExpression [callee.tree,
        node .arguments (mark .openParen :: items ++ [mark .closeParen])]))
      (do
        let callee ← first
        let arguments ← outcome
        return .call callee arguments) := by
  refine computes_two ?_
  rw [lowerPair.eq_def, callee.isLeaf_tree]
  refine Computes.bind h fun operation => Computes.bind ?_ fun _ => Computes.pure _
  change Computes .value (lowerArguments _ (mark .openParen :: (items ++ [mark .closeParen]))) _
  rw [lowerArguments]
  simp only [List.getLast?_concat, List.dropLast_concat]
  exact hitems

/-- A step before its operand. -/
theorem computes_stepBefore (step : Step) {operand : Tree}
    (h : Computes .value (target operand) place) :
    Computes .value (value (node .singleExpression [mark step.sign, operand]))
      (place >>= fun place => some (store place
        (.binary step.operator (fetch place) (.literal (.int 1))) .mustExist)) := by
  refine computes_two ?_
  rw [lowerPair.eq_def, if_pos (isLeaf_mark _), text_mark, stepOperator?_sign]
  refine Computes.bind h fun place => ?_
  rw [stepBefore_eq]
  exact Computes.pure _

/-- A step behind its operand. -/
theorem computes_stepAfter (operand : Expression) (step : Step)
    (h : Computes .value (target operand.tree) place) :
    Computes .value (value (node .singleExpression [operand.tree, mark step.sign]))
      (place >>= fun place => some (.stackPop (store place
        (.binary step.operator (.stackPush (fetch place)) (.literal (.int 1))) .mustExist))) := by
  refine computes_two ?_
  rw [lowerPair.eq_def, operand.isLeaf_tree, if_neg Bool.false_ne_true]
  dsimp only [mark, token]
  rw [stepOperator?_sign]
  refine Computes.bind h fun place => ?_
  rw [stepAfter_eq]
  exact Computes.pure _

/-- A sign before its operand. -/
theorem computes_unary (operator : UnaryOperator) {operand : Tree}
    (h : Computes .value (value operand) first) :
    Computes .value (value (node .singleExpression [mark (unarySign operator), operand]))
      (first >>= fun operation => some (.unary operator operation)) := by
  refine computes_two ?_
  rw [lowerPair.eq_def, if_pos (isLeaf_mark _), text_mark, stepOperator?_unarySign,
    ofSymbol?_unarySign]
  exact Computes.bind h fun _ => Computes.pure _

/-- A sign between operands, if it has an operator. -/
theorem computes_binary (left : Expression) (sign : InfixSign) {right : Tree}
    (hfirst : Computes .value (value left.tree) first)
    (hsecond : Computes .value (value right) second) :
    Computes .value (value (node .singleExpression [left.tree, mark sign.sign, right]))
      (do
        let operator ← sign.operator?
        let left ← first
        let right ← second
        return .binary operator left right) := by
  -- Three parts are told apart by the middle one, so the sign must not look like another form's.
  obtain ⟨hdot, hassign⟩ := spelling_sign_ne sign
  refine computes_three ?_
  rw [lowerTriple, if_neg (by simp), if_neg (by simp), if_neg (by simp), text_mark, if_neg hdot,
    if_neg hassign, ofSymbol?_sign]
  cases sign.operator? with
  | none => exact Computes.throw rfl
  | some operator =>
    exact Computes.bind hfirst fun _ => Computes.bind hsecond fun _ => Computes.pure _

/-- An assignment to a target. -/
theorem computes_assign (left : Expression) {right : Tree}
    (hplace : Computes .value (target left.tree) place)
    (hvalue : Computes .value (value right) first) :
    Computes .value (value (node .singleExpression [left.tree, mark .assign, right]))
      (do
        let place ← place
        let value ← first
        return store place value .unconstrained) := by
  refine computes_three ?_
  have hassign : (mark .assign).text = "=" := rfl
  rw [lowerTriple, if_neg (by simp), if_neg (by decide), if_neg (by decide), if_neg (by decide),
    if_pos hassign]
  refine Computes.bind hplace fun place => Computes.bind hvalue fun operand => ?_
  rw [assign_eq]
  exact Computes.pure _

/-- A compound assignment to a target. -/
theorem computes_combine (left : Expression) (sign : CompoundSign) {right : Tree}
    (hplace : Computes .value (target left.tree) place)
    (hvalue : Computes .value (value right) first) :
    Computes .value
      (value (node .singleExpression
        [left.tree, node .assignmentOperator [mark sign.sign], right]))
      (do
        let operator ← sign.operator?
        let place ← place
        let value ← first
        return store place (.binary operator (fetch place) value) .mustExist) := by
  refine computes_three ?_
  rw [lowerTriple, if_neg (by simp), if_pos (rule?_node _ _), text_assignmentOperator,
    ofCompound?_sign]
  cases sign.operator? with
  | none => exact Computes.throw rfl
  | some operator =>
    refine Computes.bind hplace fun place => Computes.bind hvalue fun operand => ?_
    rw [combine_eq]
    exact Computes.pure _

end

/-- All expressions but names, members and indices are refused as targets. -/
theorem Expression.target_refused {expression : Expression} (h : expression.isPlace = false) :
    Computes .value (target expression.tree) none := by
  cases expression with
  | name text => cases h
  | member object name => cases h
  | index object position => cases h
  | constant constant | list elements =>
    rw [Expression.tree]
    exact target_one_refused (by simp)
  | call first second | stepBefore first second | stepAfter first second | unary first second =>
    rw [Expression.tree]
    exact target_two_refused _ _
  | parenthesized inner =>
    rw [Expression.tree]
    exact target_three_refused (inner.isText_tree ".")
  | binary left sign right =>
    rw [Expression.tree]
    exact target_three_refused (beq_eq_false_iff_ne.mpr (spelling_sign_ne sign).1)
  | assign left right =>
    rw [Expression.tree]
    exact target_three_refused (by decide)
  | combine left sign right =>
    rw [Expression.tree]
    exact target_three_refused (isText_node _ _ ".")

mutual

/-- An expression is lowered to the operation that it means. -/
theorem Expression.computes_value : (expression : Expression) →
    Computes .value (value expression.tree) expression.lower?
  | .name text => by
    rw [Expression.tree, Expression.lower?]
    refine computes_one ?_
    rw [identifier, primary_node rfl, ← identifier, value_identifier]
    exact Computes.pure _
  | .constant constant => by
    rw [Expression.tree, Expression.lower?]
    refine computes_one ?_
    rw [primary_node rfl, value_literal]
    exact Computes.bind (Computes.lift constant.accords_literal) fun _ => Computes.pure _
  | .list elements => by
    rw [Expression.tree, Expression.lower?]
    exact computes_list elements.computes_items
  | .parenthesized inner => by
    rw [Expression.tree, Expression.lower?]
    exact computes_parenthesized inner inner.computes_value
  | .member object name => by
    rw [Expression.tree, Expression.lower?]
    exact computes_member object name object.computes_value
  | .index object position => by
    rw [Expression.tree, Expression.lower?]
    exact computes_index object position object.computes_value position.computes_value
  | .call callee arguments => by
    rw [Expression.tree, Expression.lower?]
    exact computes_call callee callee.computes_value (computes_arguments arguments)
  | .stepBefore step operand => by
    rw [Expression.tree, Expression.lower?]
    exact computes_stepBefore step operand.computes_place
  | .stepAfter operand step => by
    rw [Expression.tree, Expression.lower?]
    exact computes_stepAfter operand step operand.computes_place
  | .unary operator operand => by
    rw [Expression.tree, Expression.lower?]
    exact computes_unary operator operand.computes_value
  | .binary left sign right => by
    rw [Expression.tree, Expression.lower?]
    exact computes_binary left sign left.computes_value right.computes_value
  | .assign left right => by
    rw [Expression.tree, Expression.lower?]
    exact computes_assign left left.computes_place right.computes_value
  | .combine left sign right => by
    rw [Expression.tree, Expression.lower?]
    exact computes_combine left sign left.computes_place right.computes_value

/-- An expression is lowered to the place that it denotes. -/
theorem Expression.computes_place : (expression : Expression) →
    Computes .value (target expression.tree) expression.place?
  | .name text => by
    rw [Expression.tree, Expression.place?]
    exact target_name text
  | .member object name => by
    rw [Expression.tree, Expression.place?]
    exact target_member name object.computes_value
  | .index object position => by
    rw [Expression.tree, Expression.place?]
    obtain ⟨_, hposition⟩ := exists_tree_of_sequence position
    exact target_index hposition object.computes_value position.computes_value
  | .constant _ | .list _ | .parenthesized _ | .call _ _ | .stepBefore _ _ | .stepAfter _ _
  | .unary _ _ | .binary _ _ _ | .assign _ _ | .combine _ _ _ =>
    Expression.target_refused rfl

/-- A sequence of one expression has its value, and a longer one is refused. -/
theorem Sequence.computes_value : (sequence : Sequence) →
    Computes .value (value sequence.tree) sequence.lower?
  | .mk first [] => by
    rw [Sequence.tree, Sequence.lower?]
    change Computes .value (value (node .expressionSequence [first.tree])) _
    rw [value_sequence]
    exact first.computes_value
  | .mk first (second :: rest) => by
    rw [Sequence.tree, Sequence.lower?]
    exact computes_several first.tree second.tree (allTrees rest)

/-- Elements are lowered to what they mean. -/
theorem Elements.computes_items : (elements : Elements) →
    Computes .value (lowerItems .elementSeparator elements.trees) elements.lower?
  | .none => by
    rw [Elements.trees, Elements.lower?, lowerItems]
    exact Computes.pure []
  | .skip rest => by
    rw [Elements.trees, Elements.lower?, lowerItems_comma]
    exact rest.computes_items
  | .last last => by
    rw [Elements.trees, Elements.lower?, lowerItems_node, value_wrapped (.inr rfl), lowerItems]
    exact Computes.bind last.computes_value fun _ => Computes.pure _
  | .next first rest => by
    rw [Elements.trees, Elements.lower?, lowerItems_node, value_wrapped (.inr rfl),
      lowerItems_comma]
    exact Computes.bind first.computes_value fun _ =>
      Computes.bind rest.computes_items fun _ => Computes.pure _

/-- Arguments are lowered to what they mean. -/
theorem computes_arguments : (arguments : List Expression) →
    Computes .value
      (lowerItems .argumentSeparator
        (separated ((allTrees arguments).map fun tree => node .argument [tree])))
      (lowerAll? arguments)
  | [] => by
    rw [allTrees, lowerAll?]
    change Computes .value (lowerItems .argumentSeparator []) _
    rw [lowerItems]
    exact Computes.pure []
  | first :: rest => by
    rw [allTrees, lowerAll?, List.map_cons, lowerItems_separated, value_wrapped (.inl rfl)]
    exact Computes.bind first.computes_value fun _ =>
      Computes.bind (computes_arguments rest) fun _ => Computes.pure _

end

/-! ## Parameters -/

/-- The tree of a parameter. -/
abbrev parameter (name : String) : Tree := node .formalParameterArg [assignable name]

/-- A parameter is refused if it has been seen. -/
theorem parameterNames_parameter (seen : List String) (name : String) (rest : List Tree) :
    Tree.parameterNames seen (parameter name :: rest) =
      if seen.contains name then .error ((parameter name).malformed (.duplicateParameter name))
      else Tree.parameterNames (seen ++ [name]) rest := by
  by_cases hname : seen.contains name = true
  · rw [if_pos hname]
    change (if seen.contains name then _ else _ : Except CompileError (List String)) = _
    rw [if_pos hname]
    rfl
  · rw [if_neg hname]
    change (if seen.contains name then _ else _ : Except CompileError (List String)) = _
    rw [if_neg hname]
    rfl

/-- The commas between parameters do not count. -/
theorem parameterNames_separated (seen : List String) (name : String) (rest : List Tree) :
    Tree.parameterNames seen (separated (parameter name :: rest)) =
      if seen.contains name then .error ((parameter name).malformed (.duplicateParameter name))
      else Tree.parameterNames (seen ++ [name]) (separated rest) := by
  cases rest with
  | nil => exact parameterNames_parameter seen name []
  | cons next rest =>
    exact parameterNames_parameter seen name (mark .comma :: separated (next :: rest))

/-- Parameters are collected as long as none is repeated. -/
theorem accords_parameterNames (parameters : List String) :
    ∀ seen : List String, seen.Nodup →
      Accords (Tree.parameterNames seen (separated (parameters.map parameter)))
        (if (seen ++ parameters).Nodup then some (seen ++ parameters) else none) := by
  induction parameters with
  | nil =>
    intro seen hseen
    rw [List.append_nil, if_pos hseen]
    rfl
  | cons name rest ih =>
    intro seen hseen
    rw [List.map_cons, parameterNames_separated]
    by_cases hname : name ∈ seen
    · have hrepeats : ¬ (seen ++ name :: rest).Nodup := fun h =>
        (List.nodup_append.mp h).2.2 name hname name (List.mem_cons_self ..) rfl
      rw [if_pos (List.contains_iff_mem.mpr hname), if_neg hrepeats]
      exact ⟨_, rfl, rfl⟩
    · have hnext : (seen ++ [name]).Nodup :=
        List.nodup_append.mpr ⟨hseen, List.pairwise_singleton _ name, by
          rintro other hother _ hmem rfl
          exact hname (List.mem_singleton.mp hmem ▸ hother)⟩
      rw [if_neg (mt List.contains_iff_mem.mp hname), List.append_cons seen name rest]
      exact ih (seen ++ [name]) hnext

/-! ## Forms of statements -/

/-- Every statement is written as a node of one rule. -/
theorem exists_tree_of_statement (statement : Statement) :
    ∃ inner, statement.tree = node .statement [inner] := by
  cases statement <;> exact ⟨_, by rw [Statement.tree]⟩

/-- A statement passes the check for statements. -/
@[simp] theorem Statement.requireRule_tree (statement : Statement) (index : Nat) (parent : Tree) :
    statement.tree.requireRule .statement index parent = .ok () := by
  obtain ⟨inner, h⟩ := exists_tree_of_statement statement
  rw [h, requireRule_node]

section

variable {outcome : Option (List Operation)} {operation : Option Operation}

/-- A statement appends what it holds. -/
theorem appends_inner (hrule : rule = .statement ∨ rule = .sourceElement)
    (h : Appends (visit inner) none outcome) :
    Appends (visit (node rule [inner])) none outcome := by
  have hinner : Appends (visitInner (node rule [inner]) [inner]) () outcome := by
    rw [visitInner]
    exact h.andReturn ()
  rw [visit.eq_def]
  obtain rfl | rfl := hrule
  all_goals exact hinner.andReturn none

/-- A list of statements appends what they append one after another. -/
theorem appends_list (hrule : rule = .statementList ∨ rule = .sourceElements)
    (h : Appends (visitAll children) () outcome) :
    Appends (visit (node rule children)) none outcome := by
  rw [visit.eq_def]
  obtain rfl | rfl := hrule
  all_goals exact h.andReturn none

/-- A statement that is not a block appends the same operations as a branch and among others. -/
theorem agrees_of_appends (hblock : inner.rule? ≠ some .block)
    (h : Appends (visit inner) none outcome) :
    Appends (visit (node .statement [inner])) none outcome ∧
      Computes .value (branch (node .statement [inner])) outcome := by
  have happends := appends_inner (.inl rfl) h
  refine ⟨happends, ?_⟩
  rw [branch.eq_def]
  change Computes .value (if inner.rule? = some .block then _ else _) _
  rw [if_neg hblock]
  exact Computes.collect (happends.andReturn ())

/-- A block is lowered to what its statements append. -/
theorem computes_blockBody (parent : Tree) (h : Appends (visitAll children) () outcome) :
    Computes .value (blockBody parent
      [mark .openBrace, node .statementList children, mark .closeBrace]) outcome := by
  rw [blockBody]
  simp only [requireText_openBrace, requireText_closeBrace, requireRule_node, lift_ok_bind]
  exact Computes.collect ((appends_list (.inl rfl) h).andReturn ())

/-- A block opens a scope among other statements, and none as a branch. -/
theorem agrees_block (h : Appends (visitAll children) () outcome) :
    let block := node .block [mark .openBrace, node .statementList children, mark .closeBrace]
    Appends (visit (node .statement [block])) none
        (outcome >>= fun operations => some [.block operations]) ∧
      Computes .value (branch (node .statement [block])) outcome := by
  intro block
  have hbody := computes_blockBody block h
  constructor
  · refine appends_inner (.inl rfl) ?_
    rw [visit.eq_def]
    exact Computes.appends hbody fun _ => (Appends.emit _ _).andReturn none
  · rw [branch.eq_def]
    exact hbody

/-- An expression statement appends its operation. -/
theorem appends_expression (parent ending : Tree) (sequence : Sequence) :
    Appends (lowerExpressionStatement parent [sequence.tree, ending]) ()
      (sequence.lower? >>= fun operation => some [operation]) := by
  rw [lowerExpressionStatement, sequence.requireRule_tree]
  exact Computes.appends sequence.computes_value fun _ => Appends.emit _ _

/-- Every ending is written as a node of one rule. -/
theorem exists_tree_of_ending (ending : Ending) : ∃ children, ending.tree = node .eos children := by
  cases ending <;> exact ⟨_, rfl⟩

/-- A variable is declared with its first value. -/
theorem appends_variable (parent : Tree) (declarator : Declarator) (ending : List Tree) :
    Appends (lowerVariable parent
        [node .variableDeclarationList [node .varModifier [word .varWord], declarator.tree],
          node .eos ending]) ()
      (declarator.value? >>= fun first =>
        some [.setVariable declarator.name first .cannotExist true]) := by
  obtain ⟨name, initial⟩ := declarator
  rw [lowerVariable.eq_def]
  cases initial with
  | none =>
    have hinitial : Computes .value (initialValue (Declarator.tree ⟨name, none⟩) [])
        (Declarator.value? ⟨name, none⟩) := by
      rw [initialValue]
      exact Computes.pure _
    exact Computes.appends hinitial fun _ => Appends.emit _ _
  | some first =>
    have hinitial : Computes .value
        (initialValue (Declarator.tree ⟨name, some first⟩) [mark .assign, first.tree])
        (Declarator.value? ⟨name, some first⟩) := by
      rw [initialValue]
      exact first.computes_value
    exact Computes.appends hinitial fun _ => Appends.emit _ _

/-- One variable can be declared at a time, and only with the first of the three words. -/
theorem appends_declaration (parent : Tree) (position : Position) (declarer : Declarer)
    (first : Declarator) (rest : List Declarator) (ending : Ending) :
    Appends (lowerVariable parent
        [node .variableDeclarationList (node .varModifier [word declarer.word] ::
          separated (first.tree :: rest.map Declarator.tree)), ending.tree]) ()
      ((Statement.declaration declarer first rest ending).lower? position) := by
  obtain ⟨children, hending⟩ := exists_tree_of_ending ending
  rw [hending]
  cases declarer with
  | varWord =>
    cases rest with
    | nil =>
      rw [Statement.lower?]
      exact appends_variable parent first children
    | cons second rest =>
      rw [lowerVariable.eq_def]
      cases rest <;> exact Appends.throw rfl
  | letWord | constWord =>
    rw [lowerVariable.eq_def]
    exact Appends.throw rfl

/-- A `return` appends what it means. -/
theorem appends_giveBack (parent : Tree) (position : Position) (result : Option Sequence)
    (ending : Ending) :
    Appends (lowerReturn parent
        (word .returnWord :: (result.map Sequence.tree).toList ++ [ending.tree])) ()
      ((Statement.giveBack result ending).lower? position) := by
  cases result with
  | none =>
    rw [lowerReturn.eq_def, Statement.lower?]
    exact Appends.emit _ _
  | some sequence =>
    change Appends (lowerReturn parent [word .returnWord, sequence.tree, ending.tree]) () _
    rw [lowerReturn, sequence.requireRule_tree, Statement.lower?]
    exact Computes.appends sequence.computes_value fun _ => Appends.emit _ _

/-- A body is lowered to what its statements append. -/
theorem computes_functionBody (h : Appends (visitAll children) () outcome) :
    Computes .value (functionBody (node .functionBody
      [mark .openBrace, node .sourceElements children, mark .closeBrace])) outcome := by
  rw [node, functionBody]
  simp only [requireText_openBrace, requireText_closeBrace, requireRule_node, lift_ok_bind]
  exact Computes.collect ((appends_list (.inr rfl) h).andReturn ())

/-- A function is bound to its name if no parameter is repeated. -/
theorem appends_function (parent : Tree) (name : String) (parameters : List String)
    (h : Appends (visitAll children) () outcome) :
    Appends (lowerFunction parent
        ([word .functionWord, identifier name, mark .openParen] ++ parameterTrees parameters ++
          [mark .closeParen, node .functionBody
            [mark .openBrace, node .sourceElements children, mark .closeBrace]])) ()
      (if parameters.Nodup then
        outcome >>= fun operations =>
          some [.setVariable name (.function name parameters operations) .unconstrained true]
      else none) := by
  have hbody := computes_functionBody h
  cases parameters with
  | nil =>
    rw [if_pos List.nodup_nil, lowerFunction.eq_def]
    exact Computes.appends hbody fun _ => Appends.emit _ _
  | cons first rest =>
    have hnames : Computes .value
        (liftM (Tree.parameterNames [] (separated ((first :: rest).map parameter))))
        (if (first :: rest).Nodup then some (first :: rest) else none) :=
      Computes.lift (accords_parameterNames (first :: rest) [] List.nodup_nil)
    have happends := Computes.appends hnames fun names =>
      Computes.appends hbody fun operations =>
        Appends.emit (.setVariable name (.function name names operations) .unconstrained true)
          parent
    rw [lowerFunction.eq_def]
    by_cases hnodup : (first :: rest).Nodup
    · rw [if_pos hnodup] at happends ⊢
      exact happends
    · rw [if_neg hnodup] at happends ⊢
      exact happends

/-- A condition passes its checks and has its value. -/
theorem conditionValue_eq (parent : Tree) (condition : Sequence) :
    conditionValue parent (word .ifWord) (mark .openParen) condition.tree (mark .closeParen) =
      value condition.tree := by
  rw [conditionValue, condition.requireRule_tree]
  rfl

/-- An `if` appends what it means. -/
theorem appends_ifThen (parent : Tree) (condition : Sequence) (consequence : Statement)
    (h : Computes .value (branch consequence.tree) outcome) :
    Appends (lowerConditional parent
        [word .ifWord, mark .openParen, condition.tree, mark .closeParen, consequence.tree]) ()
      (do
        let test ← condition.lower?
        let thenBody ← outcome
        return [.ifThen test thenBody]) := by
  rw [lowerConditional, conditionValue_eq, consequence.requireRule_tree]
  exact Computes.appends condition.computes_value fun _ =>
    Computes.appends h fun _ => Appends.emit _ _

/-- An `if` with an `else` appends what it means. -/
theorem appends_ifThenElse (parent : Tree) (condition : Sequence)
    (consequence alternative : Statement) {otherwise : Option (List Operation)}
    (hthen : Computes .value (branch consequence.tree) outcome)
    (helse : Computes .value (branch alternative.tree) otherwise) :
    Appends (lowerConditional parent
        [word .ifWord, mark .openParen, condition.tree, mark .closeParen, consequence.tree,
          word .elseWord, alternative.tree]) ()
      (do
        let test ← condition.lower?
        let thenBody ← outcome
        let elseBody ← otherwise
        return [.ifThenElse test thenBody elseBody]) := by
  rw [lowerConditional, conditionValue_eq, consequence.requireRule_tree,
    alternative.requireRule_tree]
  exact Computes.appends condition.computes_value fun _ =>
    Computes.appends hthen fun _ => Computes.appends helse fun _ => Appends.emit _ _

end

mutual

/-- A statement appends what it means, among others and as a branch. -/
theorem Statement.agrees : (statement : Statement) →
    Appends (visit statement.tree) none (statement.lower? .among) ∧
      Computes .value (branch statement.tree) (statement.lower? .branch)
  | .block body => by
    have h := agrees_block (appends_statements body)
    rw [Statement.tree, Statement.lower?, Statement.lower?]
    refine ⟨h.1, ?_⟩
    change Computes _ _ (lowerStatements? body >>= pure)
    rw [bind_pure]
    exact h.2
  | .declaration declarer first rest ending => by
    rw [Statement.tree]
    refine ⟨(agrees_of_appends (by simp) ?_).1, (agrees_of_appends (by simp) ?_).2⟩
    all_goals
      rw [visit.eq_def]
      exact (appends_declaration _ _ declarer first rest ending).andReturn none
  | .empty => by
    rw [Statement.tree, Statement.lower?, Statement.lower?]
    refine agrees_of_appends (by simp) ?_
    rw [visit.eq_def]
    exact Appends.pure none
  | .expression sequence ending => by
    rw [Statement.tree, Statement.lower?, Statement.lower?]
    refine agrees_of_appends (by simp) ?_
    rw [visit.eq_def]
    exact (appends_expression _ ending.tree sequence).andReturn none
  | .ifThen condition consequence => by
    rw [Statement.tree, Statement.lower?, Statement.lower?]
    refine agrees_of_appends (by simp) ?_
    rw [visit.eq_def]
    exact (appends_ifThen _ condition consequence consequence.agrees.2).andReturn none
  | .ifThenElse condition consequence alternative => by
    rw [Statement.tree, Statement.lower?, Statement.lower?]
    refine agrees_of_appends (by simp) ?_
    rw [visit.eq_def]
    exact (appends_ifThenElse _ condition consequence alternative consequence.agrees.2
      alternative.agrees.2).andReturn none
  | .loop condition body => by
    rw [Statement.tree, Statement.lower?, Statement.lower?]
    refine agrees_of_appends (by simp) ?_
    rw [visit.eq_def]
    exact Appends.throw rfl
  | .giveBack result ending => by
    rw [Statement.tree]
    refine ⟨(agrees_of_appends (by simp) ?_).1, (agrees_of_appends (by simp) ?_).2⟩
    all_goals
      rw [visit.eq_def]
      exact (appends_giveBack _ _ result ending).andReturn none
  | .function name parameters body => by
    rw [Statement.tree, Statement.lower?, Statement.lower?]
    refine agrees_of_appends (by simp) ?_
    rw [visit.eq_def]
    exact (appends_function _ name parameters (appends_elements body)).andReturn none

/-- Statements append what they mean. -/
theorem appends_statements : (statements : List Statement) →
    Appends (visitAll (statementTrees statements)) () (lowerStatements? statements)
  | [] => by
    rw [statementTrees, lowerStatements?, visitAll]
    exact Appends.pure ()
  | statement :: rest => by
    rw [statementTrees, lowerStatements?, visitAll]
    exact Appends.bind statement.agrees.1 (appends_statements rest)

/-- Source elements append what they mean. -/
theorem appends_elements : (statements : List Statement) →
    Appends (visitAll (elementTrees statements)) () (lowerStatements? statements)
  | [] => by
    rw [elementTrees, lowerStatements?, visitAll]
    exact Appends.pure ()
  | statement :: rest => by
    rw [elementTrees, lowerStatements?, visitAll]
    exact Appends.bind (appends_inner (.inr rfl) statement.agrees.1) (appends_elements rest)

end

/-- The tree of a script is lowered to the program that the script means, and refused if it means
none. -/
theorem Script.accords_ofTree (script : Script) :
    Accords (Program.ofTree script.tree) script.lower? := by
  have hvisit := appends_list (.inr rfl) (appends_elements script.body) opened
    (List.cons_ne_nil _ _) rfl
  change Accords (lowerProgram script.tree initial).1 _
  rw [Script.tree, node, lowerProgram_node rfl, Script.lower?]
  cases hlower : lowerStatements? script.body with
  | none =>
    rw [hlower] at hvisit
    obtain ⟨error, after, hfails, hrefuses⟩ := hvisit
    rw [hfails]
    exact ⟨error, rfl, hrefuses⟩
  | some operations =>
    rw [hlower] at hvisit
    change visit _ opened = _ at hvisit
    rw [hvisit]
    simp [Accords, opened, Sinks.extend]

end TreeScript.Surface
