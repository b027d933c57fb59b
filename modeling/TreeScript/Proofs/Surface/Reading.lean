import TreeScript.Proofs.Surface.Syntax

/-!
# Trees of the grammar are trees of scripts

Every tree that the grammar allows is, without its spans, the tree that some script is written as.
By induction on the productions: each phrase stands for the trees of one kind of surface form, and
a production puts a form together from the forms of its parts. Strengths of operands and the rule
on `else` only restrict which scripts there are, so they play no part here.
-/

namespace TreeScript.Surface

/-! ## Tokens -/

section

variable {tree : Tree} {test : Kind → Bool}

/-- A token without its span is settled by its kind and text, and the text holds what the kind
says. -/
theorem exists_token (h : tree.IsToken test) :
    ∃ kind text, test kind = true ∧ kind.Holds text ∧ tree.withoutSpans = token kind text := by
  cases h with
  | leaf hkind _ htext _ =>
    exact ⟨_, _, hkind, htext.holds, by rw [Tree.withoutSpans, token]⟩

/-- The token of a mark is written as the mark. -/
theorem eq_mark {sign : Mark} (h : tree.IsToken (· == .mark sign)) :
    tree.withoutSpans = mark sign := by
  obtain ⟨kind, text, hkind, htext, htree⟩ := exists_token h
  obtain rfl := beq_iff_eq.mp hkind
  rw [htree, mark, htext]

/-- The token of a word is written as the word. -/
theorem eq_word {reserved : Word} (h : tree.IsToken (· == .word reserved)) :
    tree.withoutSpans = word reserved := by
  obtain ⟨kind, text, hkind, htext, htree⟩ := exists_token h
  obtain rfl := beq_iff_eq.mp hkind
  rw [htree, word, htext]

/-- The token of a name is written as a name. -/
theorem exists_name (h : tree.IsToken (· == .name)) :
    ∃ text, tree.withoutSpans = token .name text := by
  obtain ⟨kind, text, hkind, -, htree⟩ := exists_token h
  obtain rfl := beq_iff_eq.mp hkind
  exact ⟨text, htree⟩

/-- The token of a reserved word is written as one. -/
theorem exists_word (h : tree.IsToken Kind.isWord) :
    ∃ reserved, tree.withoutSpans = word reserved := by
  obtain ⟨kind, text, hkind, htext, htree⟩ := exists_token h
  cases kind with
  | word reserved => exact ⟨reserved, by rw [htree, word, htext]⟩
  | _ => cases hkind

/-- The token of a compound assignment has its sign. -/
theorem exists_compoundSign (h : tree.IsToken Kind.isCompound) :
    ∃ sign : CompoundSign, tree.withoutSpans = mark sign.sign := by
  obtain ⟨kind, text, hkind, htext, htree⟩ := exists_token h
  rw [htree]
  cases kind with
  | mark sign =>
    obtain rfl : text = sign.spelling := htext
    cases sign with
    | addAssign => exact ⟨.add, rfl⟩
    | subAssign => exact ⟨.sub, rfl⟩
    | mulAssign => exact ⟨.mul, rfl⟩
    | divAssign => exact ⟨.div, rfl⟩
    | modAssign => exact ⟨.mod, rfl⟩
    | powerAssign => exact ⟨.pow, rfl⟩
    | shiftLeftAssign => exact ⟨.shiftLeft, rfl⟩
    | shiftRightAssign => exact ⟨.shiftRight, rfl⟩
    | shiftRightZeroAssign => exact ⟨.shiftRightZero, rfl⟩
    | bitAndAssign => exact ⟨.bitAnd, rfl⟩
    | bitOrAssign => exact ⟨.bitOr, rfl⟩
    | bitXorAssign => exact ⟨.bitXor, rfl⟩
    | _ => cases hkind
  | _ => cases hkind

/-- All signs between operands. -/
def infixSigns : List InfixSign :=
  .identical :: .notIdentical :: .shiftLeft :: .shiftRight :: .shiftRightZero ::
    BinaryOperator.all.map InfixSign.known

/-- Every operator of a level has a sign. -/
theorem mem_infixSigns (level : Level) :
    ∀ sign ∈ level.marks, sign ∈ infixSigns.map InfixSign.sign := by
  cases level <;> decide

/-- The token of an operator has its sign. -/
theorem exists_infixSign {level : Level} (h : tree.IsToken level.accepts) :
    ∃ sign : InfixSign, tree.withoutSpans = mark sign.sign := by
  obtain ⟨kind, text, hkind, htext, htree⟩ := exists_token h
  rw [htree]
  cases kind with
  | mark sign =>
    obtain rfl : text = sign.spelling := htext
    obtain ⟨infixSign, -, rfl⟩ :=
      List.mem_map.mp (mem_infixSigns level sign (List.contains_iff_mem.mp hkind))
    exact ⟨infixSign, rfl⟩
  | _ => cases hkind

/-- The token of a step has its sign. -/
theorem exists_step (h : tree.IsToken Kind.isStep) :
    ∃ step : Step, tree.withoutSpans = mark step.sign := by
  obtain ⟨kind, text, hkind, htext, htree⟩ := exists_token h
  rw [htree]
  cases kind with
  | mark sign =>
    obtain rfl : text = sign.spelling := htext
    cases sign with
    | increment => exact ⟨.up, rfl⟩
    | decrement => exact ⟨.down, rfl⟩
    | _ => cases hkind
  | _ => cases hkind

/-- A sign in front of an operand is a step sign or belongs to an operator. -/
theorem exists_sign_before (h : tree.IsToken Kind.isPrefixSign) :
    (∃ step : Step, tree.withoutSpans = mark step.sign) ∨
      ∃ operator : UnaryOperator, tree.withoutSpans = mark (unarySign operator) := by
  obtain ⟨kind, text, hkind, htext, htree⟩ := exists_token h
  rw [htree]
  cases kind with
  | mark sign =>
    obtain rfl : text = sign.spelling := htext
    cases sign with
    | increment => exact .inl ⟨.up, rfl⟩
    | decrement => exact .inl ⟨.down, rfl⟩
    | minus => exact .inr ⟨.negate, rfl⟩
    | plus => exact .inr ⟨.plus, rfl⟩
    | bang => exact .inr ⟨.invert, rfl⟩
    | tilde => exact .inr ⟨.bitInvert, rfl⟩
    | _ => cases hkind
  | _ => cases hkind

/-- The token of a declaration has its word. -/
theorem exists_declarer (h : tree.IsToken Kind.isDeclarer) :
    ∃ declarer : Declarer, tree.withoutSpans = word declarer.word := by
  obtain ⟨kind, text, hkind, htext, htree⟩ := exists_token h
  rw [htree]
  cases kind with
  | word reserved =>
    obtain rfl : text = reserved.spelling := htext
    cases reserved with
    | varWord => exact ⟨.varWord, rfl⟩
    | letWord => exact ⟨.letWord, rfl⟩
    | constWord => exact ⟨.constWord, rfl⟩
    | _ => cases hkind
  | _ => cases hkind

/-- A number is a literal below a node of its own. -/
theorem exists_number (h : tree.IsToken Kind.isNumeric) :
    ∃ constant : Constant, node .numericLiteral [tree.withoutSpans] = constant.tree := by
  cases h with
  | @leaf kind text hkind _ htext _ =>
    rw [Tree.withoutSpans]
    cases kind with
    | number =>
      obtain ⟨number, rfl⟩ := spells_number_iff.mp htext
      exact ⟨.number number, rfl⟩
    | radixNumber radix => exact ⟨.radixNumber radix text, rfl⟩
    | _ => cases hkind

/-- The token of a constant is written as one. -/
theorem exists_constant (h : tree.IsToken Kind.isConstant) :
    ∃ constant : Constant, tree.withoutSpans = constant.tree := by
  obtain ⟨kind, text, hkind, htext, htree⟩ := exists_token h
  rw [htree]
  cases kind with
  | string =>
    obtain ⟨quote, content, hquote, rfl⟩ := htext
    rcases hquote with rfl | rfl
    · exact ⟨.quoted .double (String.ofList content), by
        rw [Constant.tree, Quote.enclose, String.toList_ofList, Quote.char]⟩
    · exact ⟨.quoted .single (String.ofList content), by
        rw [Constant.tree, Quote.enclose, String.toList_ofList, Quote.char]⟩
  | word reserved =>
    obtain rfl : text = reserved.spelling := htext
    cases reserved with
    | nullWord => exact ⟨.nothing, rfl⟩
    | trueWord => exact ⟨.truth true, rfl⟩
    | falseWord => exact ⟨.truth false, rfl⟩
    | _ => cases hkind
  | _ => cases hkind

end

/-! ## Lists of forms -/

/-- Items in a list have commas between them. -/
theorem separated_cons (first : Tree) {rest : List Tree} (h : rest ≠ []) :
    separated (first :: rest) = first :: mark .comma :: separated rest := by
  cases rest with
  | nil => exact absurd rfl h
  | cons next rest => rfl

/-- Trees that are each of one form are the trees of a list of such forms. -/
theorem exists_map {α : Type} {form : α → Tree} {items : List Tree}
    (h : ∀ tree ∈ items, ∃ value, [tree] = [form value]) :
    ∃ values : List α, items = values.map form := by
  induction items with
  | nil => exact ⟨[], rfl⟩
  | cons tree rest ih =>
    obtain ⟨value, hvalue⟩ := h tree (List.mem_cons_self ..)
    obtain ⟨values, rfl⟩ := ih fun other hother => h other (List.mem_cons_of_mem tree hother)
    exact ⟨value :: values, by rw [(List.cons.inj hvalue).1, List.map_cons]⟩

/-- Expressions are written one by one. -/
theorem allTrees_eq_map (expressions : List Expression) :
    allTrees expressions = expressions.map Expression.tree := by
  induction expressions with
  | nil => rfl
  | cons first rest ih => rw [allTrees, ih, List.map_cons]

/-- Statements are written one by one. -/
theorem statementTrees_eq_map (statements : List Statement) :
    statementTrees statements = statements.map Statement.tree := by
  induction statements with
  | nil => rfl
  | cons first rest ih => rw [statementTrees, ih, List.map_cons]

/-- Source elements are written one by one. -/
theorem elementTrees_eq_map (statements : List Statement) :
    elementTrees statements =
      statements.map fun statement => node .sourceElement [statement.tree] := by
  induction statements with
  | nil => rfl
  | cons first rest ih => rw [elementTrees, ih, List.map_cons]

/-! ## Phrases -/

-- What a form is written as is computed wherever it is compared with a tree.
attribute [local simp] node MemberName.tree Expression.tree Sequence.tree Elements.trees Ending.tree
  Declarator.tree Statement.tree Script.tree

/-- The trees of the surface forms that a phrase stands for. -/
def Encodes : Phrase → List Tree → Prop
  | .list item, trees =>
    ∃ items, items ≠ [] ∧ trees = separated items ∧ ∀ tree ∈ items, Encodes item [tree]
  | .many item, trees => ∀ tree ∈ trees, Encodes item [tree]
  | .optional item, trees => trees = [] ∨ ∃ tree, trees = [tree] ∧ Encodes item [tree]
  | .identifier, trees => ∃ name, trees = [identifier name]
  | .memberName, trees => ∃ name : MemberName, trees = [name.tree]
  | .assignable, trees => ∃ name, trees = [assignable name]
  | .expression _, trees => ∃ expression : Expression, trees = [expression.tree]
  | .sequence, trees => ∃ sequence : Sequence, trees = [sequence.tree]
  | .argument, trees => ∃ expression : Expression, trees = [node .argument [expression.tree]]
  | .arguments, trees => ∃ arguments : List Expression,
      trees = [node .arguments (mark .openParen ::
        separated ((allTrees arguments).map fun tree => node .argument [tree]) ++
          [mark .closeParen])]
  | .elements, trees => ∃ elements : Elements, trees = elements.trees
  | .declarator, trees => ∃ declarator : Declarator, trees = [declarator.tree]
  | .parameter, trees => ∃ name, trees = [node .formalParameterArg [assignable name]]
  | .parameterList, trees => ∃ names, trees = parameterTrees names
  | .ending, trees => ∃ ending : Ending, trees = [ending.tree]
  | .variableStatement, trees | .emptyStatement, trees | .expressionStatement, trees
  | .returnStatement, trees | .function, trees | .block, trees | .conditional, trees
  | .loop, trees => ∃ statement : Statement, node .statement trees = statement.tree
  | .statement, trees => ∃ statement : Statement, trees = [statement.tree]
  | .sourceElement, trees =>
    ∃ statement : Statement, trees = [node .sourceElement [statement.tree]]
  | .sourceElements, trees =>
    ∃ statements, trees = [node .sourceElements (elementTrees statements)]
  | .program, trees => ∃ script : Script, trees = [script.tree]

/-- A list of one tree is that tree. -/
theorem exists_of_one {α : Type} {form : α → Tree} {tree : Tree}
    (h : ∃ value, Tree.allWithoutSpans [tree] = [form value]) :
    ∃ value, tree.withoutSpans = form value := by
  obtain ⟨value, hvalue⟩ := h
  exact ⟨value, (List.cons.inj hvalue).1⟩

/-- Every form of statement is the tree of a statement. -/
theorem exists_statement {form : Phrase} {trees : List Tree}
    (hform : form ∈ Phrase.statementForms) (h : Encodes form trees) :
    ∃ statement : Statement, node .statement trees = statement.tree := by
  simp only [Phrase.statementForms, List.mem_cons, List.not_mem_nil, or_false] at hform
  rcases hform with rfl | rfl | rfl | rfl | rfl | rfl | rfl | rfl
  all_goals exact h

open TreeScript.Tree (allWithoutSpans)

/-! ## Expressions -/

section

variable {target sign value left right operand subject name index arguments comma : Tree}
  {items rest : List Tree} {strength other : Strength} {span innerSpan literalSpan : Span}

/-- An assignment is the tree of one. -/
theorem encodes_assignment (htarget : Encodes (.expression strength) (allWithoutSpans [target]))
    (hsign : sign.IsToken (· == .mark .assign))
    (hvalue : Encodes (.expression other) (allWithoutSpans [value])) :
    Encodes (.expression .assignment)
      (allWithoutSpans [.node .singleExpression [target, sign, value] span]) := by
  obtain ⟨target, htarget⟩ := exists_of_one htarget
  obtain ⟨value, hvalue⟩ := exists_of_one hvalue
  exact ⟨.assign target value, by simp [htarget, hvalue, eq_mark hsign]⟩

/-- A compound assignment is the tree of one. -/
theorem encodes_compound (htarget : Encodes (.expression strength) (allWithoutSpans [target]))
    (hsign : sign.IsToken Kind.isCompound)
    (hvalue : Encodes (.expression other) (allWithoutSpans [value])) :
    Encodes (.expression .assignment) (allWithoutSpans [.node .singleExpression
      [target, .node .assignmentOperator [sign] innerSpan, value] span]) := by
  obtain ⟨target, htarget⟩ := exists_of_one htarget
  obtain ⟨value, hvalue⟩ := exists_of_one hvalue
  obtain ⟨sign, hsign⟩ := exists_compoundSign hsign
  exact ⟨.combine target sign value, by simp [htarget, hvalue, hsign]⟩

/-- Two operands with a sign between them are an operation. -/
theorem encodes_binary {infixSign : InfixSign}
    (hleft : Encodes (.expression strength) (allWithoutSpans [left]))
    (hsign : sign.withoutSpans = mark infixSign.sign)
    (hright : Encodes (.expression other) (allWithoutSpans [right])) :
    Encodes (.expression strength)
      (allWithoutSpans [.node .singleExpression [left, sign, right] span]) := by
  obtain ⟨left, hleft⟩ := exists_of_one hleft
  obtain ⟨right, hright⟩ := exists_of_one hright
  exact ⟨.binary left infixSign right, by simp [hleft, hright, hsign]⟩

/-- A sign with its operand is the tree of one. -/
theorem encodes_signed (hsign : sign.IsToken Kind.isPrefixSign)
    (hoperand : Encodes (.expression .signed) (allWithoutSpans [operand])) :
    Encodes (.expression .signed)
      (allWithoutSpans [.node .singleExpression [sign, operand] span]) := by
  obtain ⟨operand, hoperand⟩ := exists_of_one hoperand
  rcases exists_sign_before hsign with ⟨step, hstep⟩ | ⟨operator, hoperator⟩
  · exact ⟨.stepBefore step operand, by simp [hoperand, hstep]⟩
  · exact ⟨.unary operator operand, by simp [hoperand, hoperator]⟩

/-- A step behind its operand is the tree of one. -/
theorem encodes_stepped (hoperand : Encodes (.expression .chain) (allWithoutSpans [operand]))
    (hsign : sign.IsToken Kind.isStep) :
    Encodes (.expression .stepped)
      (allWithoutSpans [.node .singleExpression [operand, sign] span]) := by
  obtain ⟨operand, hoperand⟩ := exists_of_one hoperand
  obtain ⟨step, hstep⟩ := exists_step hsign
  exact ⟨.stepAfter operand step, by simp [hoperand, hstep]⟩

/-- A member is the tree of one. -/
theorem encodes_member (hsubject : Encodes (.expression .chain) (allWithoutSpans [subject]))
    (hdot : sign.IsToken (· == .mark .dot)) (hname : Encodes .memberName (allWithoutSpans [name])) :
    Encodes (.expression .chain)
      (allWithoutSpans [.node .singleExpression [subject, sign, name] span]) := by
  obtain ⟨subject, hsubject⟩ := exists_of_one hsubject
  obtain ⟨name, hname⟩ := exists_of_one hname
  exact ⟨.member subject name, by simp [hsubject, hname, eq_mark hdot]⟩

/-- An index is the tree of one. -/
theorem encodes_index (hsubject : Encodes (.expression .chain) (allWithoutSpans [subject]))
    (hleft : left.IsToken (· == .mark .openBracket))
    (hindex : Encodes .sequence (allWithoutSpans [index]))
    (hright : right.IsToken (· == .mark .closeBracket)) :
    Encodes (.expression .chain)
      (allWithoutSpans [.node .singleExpression [subject, left, index, right] span]) := by
  obtain ⟨subject, hsubject⟩ := exists_of_one hsubject
  obtain ⟨index, hindex⟩ := exists_of_one hindex
  exact ⟨.index subject index, by simp [hsubject, hindex, eq_mark hleft, eq_mark hright]⟩

/-- A call is the tree of one. -/
theorem encodes_call (hsubject : Encodes (.expression .chain) (allWithoutSpans [subject]))
    (harguments : Encodes .arguments (allWithoutSpans [arguments])) :
    Encodes (.expression .chain)
      (allWithoutSpans [.node .singleExpression [subject, arguments] span]) := by
  obtain ⟨subject, hsubject⟩ := exists_of_one hsubject
  obtain ⟨arguments, harguments⟩ := exists_of_one harguments
  exact ⟨.call subject arguments, by simp [hsubject, harguments]⟩

/-- A list is the tree of one. -/
theorem encodes_array (hleft : left.IsToken (· == .mark .openBracket))
    (helements : Encodes .elements (allWithoutSpans items))
    (hright : right.IsToken (· == .mark .closeBracket)) :
    Encodes (.expression .primary) (allWithoutSpans [.node .singleExpression
      [.node .arrayLiteral [left, .node .elementList items innerSpan, right] literalSpan]
      span]) := by
  obtain ⟨elements, helements⟩ := helements
  exact ⟨.list elements, by simp [helements, eq_mark hleft, eq_mark hright]⟩

/-- A parenthesized sequence is the tree of one. -/
theorem encodes_parenthesized (hleft : left.IsToken (· == .mark .openParen))
    (hvalue : Encodes .sequence (allWithoutSpans [value]))
    (hright : right.IsToken (· == .mark .closeParen)) :
    Encodes (.expression .primary)
      (allWithoutSpans [.node .singleExpression [left, value, right] span]) := by
  obtain ⟨inner, hinner⟩ := exists_of_one hvalue
  exact ⟨.parenthesized inner, by simp [hinner, eq_mark hleft, eq_mark hright]⟩

/-- Expressions with commas between them are a sequence, which is never empty. -/
theorem encodes_sequence (h : Encodes (.list (.expression strength)) (allWithoutSpans items)) :
    Encodes .sequence (allWithoutSpans [.node .expressionSequence items span]) := by
  obtain ⟨trees, htrees, hseparated, hall⟩ := h
  obtain ⟨expressions, rfl⟩ := exists_map hall
  cases expressions with
  | nil => exact absurd rfl htrees
  | cons first rest =>
    exact ⟨.mk first rest, by simp [hseparated, allTrees_eq_map]⟩

/-- Arguments are the tree of some. -/
theorem encodes_arguments (hleft : left.IsToken (· == .mark .openParen))
    (h : Encodes (.list .argument) (allWithoutSpans items))
    (hright : right.IsToken (· == .mark .closeParen)) :
    Encodes .arguments (allWithoutSpans [.node .arguments (left :: items ++ [right]) span]) := by
  obtain ⟨trees, -, hseparated, hall⟩ := h
  obtain ⟨expressions, rfl⟩ := exists_map hall
  exact ⟨expressions, by
    simp [hseparated, eq_mark hleft, eq_mark hright, allTrees_eq_map, Function.comp_def]⟩

/-- An element in front of elements is one more. -/
theorem encodes_element (hvalue : Encodes (.expression strength) (allWithoutSpans [value]))
    (hcomma : comma.IsToken (· == .mark .comma))
    (hrest : Encodes .elements (allWithoutSpans rest)) :
    Encodes .elements (allWithoutSpans (.node .arrayElement [value] span :: comma :: rest)) := by
  obtain ⟨value, hvalue⟩ := exists_of_one hvalue
  obtain ⟨rest, hrest⟩ := hrest
  exact ⟨.next value rest, by simp [hvalue, hrest, eq_mark hcomma]⟩

end

/-! ## Statements -/

section

variable {name sign value modifier ending keyword left right opening closing : Tree}
  {condition consequence alternative otherwise body : Tree} {items : List Tree}
  {strength : Strength} {span innerSpan listSpan : Span}

/-- A declaration is the tree of one. -/
theorem encodes_declarator (hname : Encodes .assignable (allWithoutSpans [name]))
    (hsign : sign.IsToken (· == .mark .assign))
    (hvalue : Encodes (.expression strength) (allWithoutSpans [value])) :
    Encodes .declarator
      (allWithoutSpans [.node .variableDeclaration [name, sign, value] span]) := by
  obtain ⟨name, hname⟩ := exists_of_one hname
  obtain ⟨value, hvalue⟩ := exists_of_one hvalue
  exact ⟨⟨name, some value⟩, by simp [hname, hvalue, eq_mark hsign]⟩

/-- A statement declares one variable at least. -/
theorem encodes_variableStatement (hmodifier : modifier.IsToken Kind.isDeclarer)
    (hdeclarators : Encodes (.list .declarator) (allWithoutSpans items))
    (hending : Encodes .ending (allWithoutSpans [ending])) :
    Encodes .variableStatement (allWithoutSpans [.node .variableStatement
      [.node .variableDeclarationList (.node .varModifier [modifier] innerSpan :: items) listSpan,
        ending] span]) := by
  obtain ⟨declarer, hdeclarer⟩ := exists_declarer hmodifier
  obtain ⟨trees, htrees, hseparated, hall⟩ := hdeclarators
  obtain ⟨declarators, rfl⟩ := exists_map hall
  obtain ⟨ending, hending⟩ := exists_of_one hending
  cases declarators with
  | nil => exact absurd rfl htrees
  | cons first rest =>
    exact ⟨.declaration declarer first rest ending, by simp [hdeclarer, hseparated, hending]⟩

/-- An expression statement is the tree of one. -/
theorem encodes_expressionStatement (hvalue : Encodes .sequence (allWithoutSpans [value]))
    (hending : Encodes .ending (allWithoutSpans [ending])) :
    Encodes .expressionStatement
      (allWithoutSpans [.node .expressionStatement [value, ending] span]) := by
  obtain ⟨sequence, hsequence⟩ := exists_of_one hvalue
  obtain ⟨ending, hending⟩ := exists_of_one hending
  exact ⟨.expression sequence ending, by simp [hsequence, hending]⟩

/-- A `return` statement is the tree of one. -/
theorem encodes_returnStatement (hkeyword : keyword.IsToken (· == .word .returnWord))
    (hvalue : Encodes (.optional .sequence) (allWithoutSpans items))
    (hending : Encodes .ending (allWithoutSpans [ending])) :
    Encodes .returnStatement
      (allWithoutSpans [.node .returnStatement (keyword :: items ++ [ending]) span]) := by
  obtain ⟨ending, hending⟩ := exists_of_one hending
  rcases hvalue with hnone | ⟨tree, hone, sequence, hsequence⟩
  · exact ⟨.giveBack none ending, by simp [hnone, hending, eq_word hkeyword]⟩
  · exact ⟨.giveBack (some sequence) ending, by simp [hone, hsequence, hending, eq_word hkeyword]⟩

/-- Parameters are the tree of some. -/
theorem encodes_parameterList (h : Encodes (.list .parameter) (allWithoutSpans items)) :
    Encodes .parameterList (allWithoutSpans [.node .formalParameterList items span]) := by
  obtain ⟨trees, htrees, hseparated, hall⟩ := h
  obtain ⟨names, rfl⟩ := exists_map hall
  have hnames : names ≠ [] := fun h => htrees (by rw [h, List.map_nil])
  exact ⟨names, by simp [hseparated, hnames, parameterTrees]⟩

/-- A function without parameters has no list of them, where one with an empty list would be
written the same. -/
theorem encodes_function (hkeyword : keyword.IsToken (· == .word .functionWord))
    (hname : Encodes .identifier (allWithoutSpans [name]))
    (hleft : left.IsToken (· == .mark .openParen))
    (hparameters : Encodes (.optional .parameterList) (allWithoutSpans items))
    (hright : right.IsToken (· == .mark .closeParen))
    (hopening : opening.IsToken (· == .mark .openBrace))
    (helements : Encodes .sourceElements (allWithoutSpans [body]))
    (hclosing : closing.IsToken (· == .mark .closeBrace)) :
    Encodes .function (allWithoutSpans [.node .functionDeclaration ([keyword, name, left] ++
      items ++ [right, .node .functionBody [opening, body, closing] innerSpan]) span]) := by
  obtain ⟨name, hname⟩ := exists_of_one hname
  obtain ⟨body, hbody⟩ := exists_of_one helements
  rcases hparameters with hnone | ⟨tree, hone, names, hnames⟩
  · exact ⟨.function name [] body, by
      simp [hname, hbody, hnone, eq_word hkeyword, eq_mark hleft, eq_mark hright,
        eq_mark hopening, eq_mark hclosing, parameterTrees]⟩
  · exact ⟨.function name names body, by
      simp [hname, hbody, hone, hnames, eq_word hkeyword, eq_mark hleft, eq_mark hright,
        eq_mark hopening, eq_mark hclosing]⟩

/-- A block is the tree of one. -/
theorem encodes_block (hopening : opening.IsToken (· == .mark .openBrace))
    (h : Encodes (.many .statement) (allWithoutSpans items))
    (hclosing : closing.IsToken (· == .mark .closeBrace)) :
    Encodes .block (allWithoutSpans
      [.node .block [opening, .node .statementList items listSpan, closing] span]) := by
  obtain ⟨statements, hstatements⟩ := exists_map h
  exact ⟨.block statements, by
    simp [hstatements, eq_mark hopening, eq_mark hclosing, statementTrees_eq_map]⟩

section

variable (hleft : left.IsToken (· == .mark .openParen))
  (hcondition : Encodes .sequence (allWithoutSpans [condition]))
  (hright : right.IsToken (· == .mark .closeParen))

include hleft hcondition hright

/-- An `if` statement is the tree of one. -/
theorem encodes_ifThen (hkeyword : keyword.IsToken (· == .word .ifWord))
    (hconsequence : Encodes .statement (allWithoutSpans [consequence])) :
    Encodes .conditional (allWithoutSpans
      [.node .ifStatement [keyword, left, condition, right, consequence] span]) := by
  obtain ⟨condition, hcondition⟩ := exists_of_one hcondition
  obtain ⟨consequence, hconsequence⟩ := exists_of_one hconsequence
  exact ⟨.ifThen condition consequence, by
    simp [hcondition, hconsequence, eq_word hkeyword, eq_mark hleft, eq_mark hright]⟩

/-- An `if` statement with an `else` is the tree of one. -/
theorem encodes_ifThenElse (hkeyword : keyword.IsToken (· == .word .ifWord))
    (hconsequence : Encodes .statement (allWithoutSpans [consequence]))
    (hotherwise : otherwise.IsToken (· == .word .elseWord))
    (halternative : Encodes .statement (allWithoutSpans [alternative])) :
    Encodes .conditional (allWithoutSpans [.node .ifStatement
      [keyword, left, condition, right, consequence, otherwise, alternative] span]) := by
  obtain ⟨condition, hcondition⟩ := exists_of_one hcondition
  obtain ⟨consequence, hconsequence⟩ := exists_of_one hconsequence
  obtain ⟨alternative, halternative⟩ := exists_of_one halternative
  exact ⟨.ifThenElse condition consequence alternative, by
    simp [hcondition, hconsequence, halternative, eq_word hkeyword, eq_mark hleft, eq_mark hright,
      eq_word hotherwise]⟩

/-- A loop is the tree of one. -/
theorem encodes_loop (hkeyword : keyword.IsToken (· == .word .whileWord))
    (hbody : Encodes .statement (allWithoutSpans [body])) :
    Encodes .loop (allWithoutSpans
      [.node .iterationStatement [keyword, left, condition, right, body] span]) := by
  obtain ⟨condition, hcondition⟩ := exists_of_one hcondition
  obtain ⟨body, hbody⟩ := exists_of_one hbody
  exact ⟨.loop condition body, by
    simp [hcondition, hbody, eq_word hkeyword, eq_mark hleft, eq_mark hright]⟩

end

end

/-! ## All productions -/

/-- A further item and the comma before the others go in front of a list. -/
theorem encodes_moreItems {item : Phrase} {first comma : Tree} {rest : List Tree}
    (hfirst : Encodes item (allWithoutSpans [first])) (hcomma : comma.IsToken (· == .mark .comma))
    (hrest : Encodes (.list item) (allWithoutSpans rest)) :
    Encodes (.list item) (allWithoutSpans (first :: comma :: rest)) := by
  obtain ⟨items, hitems, hrest, hall⟩ := hrest
  refine ⟨first.withoutSpans :: items, List.cons_ne_nil _ _, ?_,
    List.forall_mem_cons.mpr ⟨hfirst, hall⟩⟩
  rw [allWithoutSpans, allWithoutSpans, eq_mark hcomma, hrest, separated_cons _ hitems]

/-- Without their spans, the trees that a phrase produces are those of surface forms. -/
theorem encodes_of_produces {omits : Bool} {phrase : Phrase} {trees : List Tree}
    (h : Produces omits phrase trees) : Encodes phrase (Tree.allWithoutSpans trees) := by
  induction h with
  | @oneItem item tree _ ih =>
    refine ⟨[tree.withoutSpans], List.cons_ne_nil _ _, rfl, ?_⟩
    intro other hother
    rw [List.mem_singleton.mp hother]
    exact ih
  | moreItems _ hcomma _ ihfirst ihrest => exact encodes_moreItems ihfirst hcomma ihrest
  | none =>
    intro tree htree
    cases htree
  | more _ _ ihfirst ihrest => exact List.forall_mem_cons.mpr ⟨ihfirst, ihrest⟩
  | absent => exact .inl rfl
  | present _ ih => exact .inr ⟨_, rfl, ih⟩
  -- Names
  | identifier hname =>
    obtain ⟨text, htext⟩ := exists_name hname
    exact ⟨text, by simp [htext, identifier]⟩
  | memberName _ ih =>
    obtain ⟨text, htext⟩ := exists_of_one ih
    exact ⟨.name text, by simp [htext]⟩
  | memberWord hword =>
    obtain ⟨reserved, hreserved⟩ := exists_word hword
    exact ⟨.word reserved, by simp [hreserved]⟩
  | assignable _ ih =>
    obtain ⟨text, htext⟩ := exists_of_one ih
    exact ⟨text, by simp [htext, assignable]⟩
  -- Expressions
  | tighter _ _ ih => exact ih
  | assignment _ hsign _ ihtarget ihvalue => exact encodes_assignment ihtarget hsign ihvalue
  | compound _ hsign _ ihtarget ihvalue => exact encodes_compound ihtarget hsign ihvalue
  | binary _ hsign _ ihleft ihright =>
    obtain ⟨sign, hsign⟩ := exists_infixSign hsign
    exact encodes_binary ihleft hsign ihright
  | power _ hsign _ ihbase ihexponent =>
    have hpower : _ = mark (InfixSign.known .pow).sign := eq_mark hsign
    exact encodes_binary ihbase hpower ihexponent
  | signed hsign _ ih => exact encodes_signed hsign ih
  | stepped _ hsign ih => exact encodes_stepped ih hsign
  | member _ hdot _ ihsubject ihname => exact encodes_member ihsubject hdot ihname
  | index _ hleft _ hright ihsubject ihindex => exact encodes_index ihsubject hleft ihindex hright
  | call _ _ ihsubject iharguments => exact encodes_call ihsubject iharguments
  | name _ ih =>
    obtain ⟨text, htext⟩ := exists_of_one ih
    exact ⟨.name text, by simp [htext]⟩
  | number hnumber =>
    obtain ⟨constant, hconstant⟩ := exists_number hnumber
    exact ⟨.constant constant, by simp [← hconstant]⟩
  | constant hconstant =>
    obtain ⟨constant, hconstant⟩ := exists_constant hconstant
    exact ⟨.constant constant, by simp [hconstant]⟩
  | array hleft _ hright ih => exact encodes_array hleft ih hright
  | parenthesized hleft _ hright ih => exact encodes_parenthesized hleft ih hright
  -- Parts of expressions
  | sequence _ ih => exact encodes_sequence ih
  | argument _ ih =>
    obtain ⟨value, hvalue⟩ := exists_of_one ih
    exact ⟨value, by simp [hvalue]⟩
  | noArguments hleft hright =>
    exact ⟨[], by simp [eq_mark hleft, eq_mark hright, allTrees, separated]⟩
  | arguments hleft _ hright ih => exact encodes_arguments hleft ih hright
  | noElements => exact ⟨.none, rfl⟩
  | skippedElement hcomma _ ih =>
    obtain ⟨rest, hrest⟩ := ih
    exact ⟨.skip rest, by simp [hrest, eq_mark hcomma]⟩
  | lastElement _ ih =>
    obtain ⟨value, hvalue⟩ := exists_of_one ih
    exact ⟨.last value, by simp [hvalue]⟩
  | element _ hcomma _ ihvalue ihrest => exact encodes_element ihvalue hcomma ihrest
  -- Statements
  | endMark hsemicolon => exact ⟨.mark, by simp [eq_mark hsemicolon]⟩
  | noEndMark _ => exact ⟨.omitted, rfl⟩
  | bareDeclarator _ ih =>
    obtain ⟨name, hname⟩ := exists_of_one ih
    exact ⟨⟨name, none⟩, by simp [hname]⟩
  | declarator _ hsign _ ihname ihvalue => exact encodes_declarator ihname hsign ihvalue
  | variableStatement hmodifier _ _ ihdeclarators ihending =>
    exact encodes_variableStatement hmodifier ihdeclarators ihending
  | emptyStatement hsemicolon =>
    exact ⟨.empty, by simp [eq_mark hsemicolon]⟩
  | expressionStatement _ _ ihsequence ihending =>
    exact encodes_expressionStatement ihsequence ihending
  | returnStatement hkeyword _ _ ihvalue ihending =>
    exact encodes_returnStatement hkeyword ihvalue ihending
  | parameter _ ih =>
    obtain ⟨name, hname⟩ := exists_of_one ih
    exact ⟨name, by simp [hname]⟩
  | parameterList _ ih => exact encodes_parameterList ih
  | function hkeyword _ hleft _ hright hopening _ hclosing ihname ihparameters ihelements =>
    exact encodes_function hkeyword ihname hleft ihparameters hright hopening ihelements hclosing
  | block hopening _ hclosing ih => exact encodes_block hopening ih hclosing
  | ifThen hkeyword hleft _ hright _ ihcondition ihconsequence =>
    exact encodes_ifThen hleft ihcondition hright hkeyword ihconsequence
  | ifThenElse hkeyword hleft _ hright _ _ hotherwise _ ihcondition ihconsequence ihalternative =>
    exact encodes_ifThenElse hleft ihcondition hright hkeyword ihconsequence hotherwise
      ihalternative
  | loop hkeyword hleft _ hright _ ihcondition ihbody =>
    exact encodes_loop hleft ihcondition hright hkeyword ihbody
  | statement hform _ ih =>
    obtain ⟨statement, hstatement⟩ := exists_statement hform ih
    exact ⟨statement, by simp [← hstatement]⟩
  | sourceElement _ ih =>
    obtain ⟨statement, hstatement⟩ := exists_of_one ih
    exact ⟨statement, by simp [hstatement]⟩
  | sourceElements _ ih =>
    obtain ⟨statements, hstatements⟩ := exists_map ih
    exact ⟨statements, by simp [hstatements, elementTrees_eq_map]⟩
  | program _ ih =>
    obtain ⟨statements, hstatements⟩ := exists_of_one ih
    exact ⟨⟨statements⟩, by simp [hstatements]⟩

end TreeScript.Surface
