import TreeScript.Proofs.Tree.Boundary
import TreeScript.Proofs.Tree.Layout
import TreeScript.Proofs.Tree.Replay

/-!
# Trees of the grammar are read back

A tree of the grammar in which every statement has its end mark is written out and read: the tree
that comes out is the same but for its spans. The induction is on the productions. It assumes of
what comes after a phrase that the phrase may end there, and shows that the phrase is read up to
there. The left operand of an operator and the subject of an access are only begun, since the loop
that reads them goes on with the operator or the access.
-/

namespace TreeScript

open Cursor TreeScript.Tree

/-! ## Reading back -/

/-- Trees that are laid out before a place where the phrase may end are read for the phrase, but
for their spans. -/
def Phrase.ReadsBack (phrase : Phrase) (trees : List Tree) : Prop :=
  ∀ c c₁, c.Laid trees c₁ → phrase.MayEnd trees c₁ →
    ∃ read, Reads phrase.progress phrase c read c₁ ∧ allWithoutSpans read = allWithoutSpans trees

section

variable {phrase : Phrase} {tree : Tree} {c c₁ : Cursor}

/-- One tree is read back. -/
theorem Phrase.ReadsBack.one (h : phrase.ReadsBack [tree]) (hlaid : c.Laid [tree] c₁)
    (hend : phrase.MayEnd [tree] c₁) :
    ∃ read, Reads phrase.progress phrase c [read] c₁ ∧ read.withoutSpans = tree.withoutSpans := by
  obtain ⟨read, hread, hsame⟩ := h c c₁ hlaid hend
  obtain - | ⟨read, - | ⟨other, rest⟩⟩ := read
  · cases hsame
  · exact ⟨read, hread, (List.cons.inj hsame).1⟩
  · cases (List.cons.inj hsame).2

/-- A loop has ended where no token goes on with it. -/
theorem Reads.finish {strength : Strength}
    (h : Reads (Phrase.expression strength).progress (.expression strength) c [tree] c₁)
    (hstop : strength.StopsAt c₁) : Reads .done (.expression strength) c [tree] c₁ := by
  cases strength with
  | level l => exact .operations h hstop.sees
  | chain => exact .accesses h hstop.sees
  | _ => exact h

/-- The parts of a loop are tighter. -/
theorem Strength.looseness_inner_le (strength : Strength) :
    strength.inner.looseness ≤ strength.looseness := by
  cases strength with
  | level l => exact Nat.le_of_lt (looseness_of_tighter? rfl)
  | chain => decide
  | _ => exact Nat.le_refl _

/-- An expression is read back. -/
theorem Phrase.ReadsBack.expression {strength : Strength}
    (h : (Phrase.expression strength).ReadsBack [tree]) (hlaid : c.Laid [tree] c₁)
    (hstop : strength.StopsAt c₁) :
    ∃ read, Reads .done (.expression strength) c [read] c₁ ∧
      read.withoutSpans = tree.withoutSpans := by
  obtain ⟨read, hread, hsame⟩ := h.one hlaid (hstop.mono strength.looseness_inner_le)
  exact ⟨read, hread.finish hstop, hsame⟩

end

/-- A stronger expression is read where a weaker one is looked for. -/
theorem Phrase.ReadsBack.tighter {strength tighter : Strength} {tree : Tree}
    (htighter : strength.tighter? = some tighter)
    (h : (Phrase.expression tighter).ReadsBack [tree]) :
    (Phrase.expression strength).ReadsBack [tree] := by
  intro c c₁ hlaid hend
  have hlt := Strength.looseness_of_tighter? htighter
  have hstop : tighter.StopsAt c₁ := by
    cases strength with
    | level l | chain =>
      cases htighter
      exact hend
    | _ => exact Strength.StopsAt.mono hend (Nat.le_of_lt hlt)
  obtain ⟨read, hread, hsame⟩ := h.expression hlaid hstop
  refine ⟨[read], ?_, by simp [hsame]⟩
  cases strength with
  | primary => cases htighter
  | assignment =>
    cases htighter
    exact .noAssignment hread (Strength.StopsAt.sees hend)
  | level l =>
    cases htighter
    exact .operand hread
  | power =>
    cases htighter
    exact .noPower hread (Strength.StopsAt.sees hend)
  | signed =>
    cases htighter
    have hbegins : c.sees Kind.startsOperand = true := hread.begins
    exact .unsigned (sees_eq_false hbegins Kind.isPrefixSign_of_startsOperand) hread
  | stepped =>
    cases htighter
    have hstep := Strength.StopsAt.sees hend
    exact .noStep hread (sees_eq_false_mono hstep fun _ h => (Bool.and_eq_true_iff.mp h).1)
  | chain =>
    cases htighter
    exact .subject hread

namespace Cursor.Takes

variable {c c₁ : Cursor} {token sign : Token}

/-- A name is an atom. -/
theorem name (h : c.Takes (· == .name) token c₁) :
    c.Takes Kind.isAtom token c₁ ∧
      Tree.atom token.leaf = Tree.expression [wrap .identifier token.leaf] := by
  have hkind : token.kind = .name := beq_iff_eq.mp h.test_kind
  refine ⟨h.mono fun _ => by rw [hkind]; rfl, ?_⟩
  simp [Tree.atom, Token.leaf, category?, hkind, Category.ofKind]

/-- A number is an atom. -/
theorem number (h : c.Takes Kind.isNumeric token c₁) :
    c.Takes Kind.isAtom token c₁ ∧
      Tree.atom token.leaf =
        Tree.expression [wrap .literal (wrap .numericLiteral token.leaf)] := by
  have hkind := h.test_kind
  unfold Token.leaf Tree.atom category?
  generalize htoken : token.kind = kind at hkind
  cases kind with
  | number | radixNumber => exact ⟨h.mono fun _ => by rw [htoken]; rfl, rfl⟩
  | _ => cases hkind

/-- A constant is an atom. -/
theorem constant (h : c.Takes Kind.isConstant token c₁) :
    c.Takes Kind.isAtom token c₁ ∧
      Tree.atom token.leaf = Tree.expression [wrap .literal token.leaf] := by
  have hkind := h.test_kind
  unfold Token.leaf Tree.atom category?
  generalize htoken : token.kind = kind at hkind
  cases kind with
  | string => exact ⟨h.mono fun _ => by rw [htoken]; rfl, rfl⟩
  | word word =>
    cases word with
    | falseWord | nullWord | trueWord => exact ⟨h.mono fun _ => by rw [htoken]; rfl, rfl⟩
    | _ => cases hkind
  | _ => cases hkind

/-- The plain sign of an assignment stands by itself between the operands. -/
theorem plain (h : c.Takes (· == .mark .assign) sign c₁) :
    c.Takes Kind.isAssignment sign c₁ ∧ sign.assignmentOperator = sign.leaf := by
  have hkind : sign.kind = .mark .assign := beq_iff_eq.mp h.test_kind
  exact ⟨h.mono fun _ => by rw [hkind]; rfl, if_pos hkind⟩

/-- A sign that combines an assignment with an operator stands below a node. -/
theorem compound (h : c.Takes Kind.isCompound sign c₁) :
    c.Takes Kind.isAssignment sign c₁ ∧
      sign.assignmentOperator = wrap .assignmentOperator sign.leaf := by
  obtain ⟨hassignment, hkind⟩ := Bool.and_eq_true_iff.mp h.test_kind
  exact ⟨h.mono fun _ => hassignment, if_neg (bne_iff_ne.mp hkind)⟩

end Cursor.Takes

/-- An item of a list is read up to the token that ends it. -/
theorem Phrase.ReadsBack.item {item : Phrase} {tree : Tree} {c c₁ : Cursor}
    (h : item.ReadsBack [tree]) (hitem : item ∈ listItems) (hlaid : c.Laid [tree] c₁)
    (hstop : Strength.assignment.StopsAt c₁) :
    ∃ read, Reads .done item c [read] c₁ ∧ read.withoutSpans = tree.withoutSpans := by
  have hback := h.one hlaid (mayEnd_of_mem_listItems hitem hstop _)
  rw [progress_of_mem_listItems _ hitem] at hback
  exact hback

/-- A form of statements is read where its first token leads the reader to it. -/
theorem Phrase.ReadsBack.form {form : Phrase} {tree : Tree} {c c₁ : Cursor}
    (h : form.ReadsBack [tree]) (hform : form ∈ statementForms) (hlaid : c.Laid [tree] c₁)
    (hend : Phrase.statement.MayEnd [tree] c₁) :
    ∃ read, Reads .done (.ofFirst c.kind?) c [read] c₁ ∧ read.withoutSpans = tree.withoutSpans := by
  obtain ⟨read, hread, hsame⟩ := h.one hlaid (mayEnd_of_mem_statementForms hform hend)
  rw [progress_of_mem_statementForms _ hform] at hread
  refine ⟨read, ?_, hsame⟩
  rw [hread.begins.ofFirst hform]
  exact hread

/-- The end mark of a statement is a semicolon when it may not be left out. -/
theorem Produces.sees_semicolon {tree : Tree} {c c₁ : Cursor} (h : Produces false .ending [tree])
    (hlaid : c.Laid [tree] c₁) : c.sees (· == .mark .semicolon) = true := by
  cases h with
  | endMark hsemicolon =>
    obtain ⟨semicolon, htakes, -⟩ := hsemicolon.takes (laid_node.mp hlaid)
    exact htakes.sees
  | noEndMark homits => cases homits

/-! ## Productions

Each production of several parts keeps the property: where its parts are read back, so is what it
makes of them. -/

namespace Phrase.ReadsBack

variable {item : Phrase} {first comma target sign operator value left right subject : Tree}
  {keyword condition consequence alternative otherwise name opening closing ending body : Tree}
  {rest items : List Tree} {level : Level} {span listSpan innerSpan : Span}

/-- A list goes on behind a comma, which ends the item before it. -/
theorem moreItems (hfirst : item.ReadsBack [first]) (hcomma : comma.IsToken (· == .mark .comma))
    (hrest : (Phrase.list item).ReadsBack rest) :
    (Phrase.list item).ReadsBack (first :: comma :: rest) := by
  rintro c c₃ hlaid ⟨hitem, hend⟩
  obtain ⟨c₁, hlaidFirst, hlater⟩ := laid_cons.mp hlaid
  obtain ⟨c₂, hlaidComma, hlaidRest⟩ := laid_cons.mp hlater
  obtain ⟨comma, htakes, hcommaSame⟩ := hcomma.takes hlaidComma
  have hstop : Strength.assignment.StopsAt c₁ := Strength.stopsAt_of_sees htakes.sees (by decide)
  obtain ⟨first, hfirst, hfirstSame⟩ := hfirst.item hitem hlaidFirst hstop
  obtain ⟨rest, hrest, hrestSame⟩ := hrest c₂ c₃ hlaidRest ⟨hitem, hend⟩
  exact ⟨_, .moreItems hfirst htakes hrest, by simp [hfirstSame, hcommaSame, hrestSame]⟩

/-- A statement is read up to the next one. What that one begins with shows that no `else`
follows. -/
theorem more (hfirst : item.ReadsBack [first]) (hrest : (Phrase.many item).ReadsBack rest) :
    (Phrase.many item).ReadsBack (first :: rest) := by
  rintro c c₂ hlaid ⟨hitem, hend⟩
  obtain ⟨c₁, hlaidFirst, hlaidRest⟩ := laid_cons.mp hlaid
  obtain ⟨rest, hrest, hrestSame⟩ := hrest c₁ c₂ hlaidRest ⟨hitem, hend⟩
  have helse := hrest.sees_else_of_many hitem
  have hread : ∃ first', Reads .done item c [first'] c₁ ∧
      first'.withoutSpans = first.withoutSpans ∧ c.sees Kind.startsStatement = true := by
    simp only [List.mem_cons, List.not_mem_nil, or_false] at hitem
    rcases hitem with rfl | rfl
    · obtain ⟨read, hread, hsame⟩ := hfirst.one hlaidFirst fun _ _ _ => helse
      exact ⟨read, hread, hsame, hread.begins⟩
    · obtain ⟨read, hread, hsame⟩ := hfirst.one hlaidFirst helse
      exact ⟨read, hread, hsame, hread.begins⟩
  obtain ⟨first, hfirst, hfirstSame, hbegins⟩ := hread
  exact ⟨_, .more (sees_kind_eq_false _ hbegins rfl) (tokens_ne_nil_of_sees hbegins) hfirst hrest,
    by simp [hfirstSame, hrestSame]⟩

/-- What may be left out is left out. -/
theorem absent : (Phrase.optional item).ReadsBack [] := by
  intro c c₁ hlaid hend
  cases laid_nil.mp hlaid
  cases item with
  | sequence => exact ⟨[], .noValue (.inl hend), rfl⟩
  | parameterList => exact ⟨[], .noParameters hend, rfl⟩
  | _ => cases hend

/-- What may be left out is there. The value of a statement that returns one stands on the same
line as the keyword, since nothing is laid out on a line of its own. -/
theorem present (h : item.ReadsBack [first]) : (Phrase.optional item).ReadsBack [first] := by
  intro c c₁ hlaid hend
  cases item with
  | sequence =>
    have hsemicolon : c₁.sees (· == .mark .semicolon) = true := hend
    obtain ⟨read, hread, hsame⟩ := h.one hlaid (endsList_of_sees hsemicolon rfl (by decide))
    have hbegins : c.sees Kind.startsExpression = true := hread.begins
    have hnone : c.sees (· == .mark .semicolon) = false := sees_kind_eq_false _ hbegins rfl
    -- A value is not the semicolon, so there is a first leaf of it.
    have hline : c.newlineBefore = false := by
      apply hlaid.newlineBefore
      rintro rfl
      rw [hsemicolon] at hnone
      cases hnone
    exact ⟨_, .value hnone (sees_kind_eq_false _ hbegins rfl) (tokens_ne_nil_of_sees hbegins)
      hline hread, by simp [hsame]⟩
  | parameterList =>
    obtain ⟨read, hread, hsame⟩ := h.one hlaid hend
    have hbegins : c.sees (· == .name) = true := hread.begins
    exact ⟨_, .parameters (sees_kind_eq_false _ hbegins rfl) hread, by simp [hsame]⟩
  | _ => cases hend

/-! ### Operators -/

/-- The sign of an assignment, plain or compound, ends its target. What is laid out for the sign
is the sign as it stands between the operands. -/
theorem assigned (htarget : (Phrase.expression (.level .disjunction)).ReadsBack [target])
    (hsign : ∀ c c₁ : Cursor, c.Laid [operator] c₁ → ∃ sign : Token,
      c.Takes Kind.isAssignment sign c₁ ∧
        sign.assignmentOperator.withoutSpans = operator.withoutSpans)
    (hvalue : (Phrase.expression .assignment).ReadsBack [value]) :
    (Phrase.expression .assignment).ReadsBack
      [.node .singleExpression [target, operator, value] span] := by
  intro c c₃ hlaid hend
  simp only [laid_node, laid_cons_cons] at hlaid
  obtain ⟨c₁, hlaidTarget, c₂, hlaidSign, hlaidValue⟩ := hlaid
  obtain ⟨sign, htakes, hsignSame⟩ := hsign c₁ c₂ hlaidSign
  have hstop : (Strength.level .disjunction).StopsAt c₁ :=
    Strength.stopsAt_of_accepts .assignment htakes.sees (by decide)
  obtain ⟨target, htarget, htargetSame⟩ := htarget.expression hlaidTarget hstop
  obtain ⟨value, hvalue, hvalueSame⟩ := hvalue.expression hlaidValue hend
  exact ⟨_, .assignment htarget htakes hvalue, by simp [htargetSame, hsignSame, hvalueSame]⟩

/-- The sign of a level stops every operand of the level, though not the loop that reads them. -/
theorem binary (hleft : (Phrase.expression (.level level)).ReadsBack [left])
    (hsign : sign.IsToken level.accepts)
    (hright : (Phrase.expression level.operand).ReadsBack [right]) :
    (Phrase.expression (.level level)).ReadsBack
      [.node .singleExpression [left, sign, right] span] := by
  intro c c₃ hlaid hend
  simp only [laid_node, laid_cons_cons] at hlaid
  obtain ⟨c₁, hlaidLeft, c₂, hlaidSign, hlaidRight⟩ := hlaid
  obtain ⟨sign, htakes, hsignSame⟩ := hsign.takes hlaidSign
  have hstop := Strength.stopsAt_of_accepts (.level level) htakes.sees
    (Strength.looseness_of_tighter? rfl)
  obtain ⟨left, hleft, hleftSame⟩ := hleft.one hlaidLeft hstop
  obtain ⟨right, hright, hrightSame⟩ := hright.expression hlaidRight hend
  exact ⟨_, .binary hleft htakes hright, by simp [hleftSame, hsignSame, hrightSame]⟩

/-- The sign of a power ends its base. -/
theorem power (hbase : (Phrase.expression .signed).ReadsBack [left])
    (hsign : sign.IsToken (· == .mark .power))
    (hexponent : (Phrase.expression .power).ReadsBack [right]) :
    (Phrase.expression .power).ReadsBack [.node .singleExpression [left, sign, right] span] := by
  intro c c₃ hlaid hend
  simp only [laid_node, laid_cons_cons] at hlaid
  obtain ⟨c₁, hlaidBase, c₂, hlaidSign, hlaidExponent⟩ := hlaid
  obtain ⟨sign, htakes, hsignSame⟩ := hsign.takes hlaidSign
  have hstop : Strength.signed.StopsAt c₁ := Strength.stopsAt_of_sees htakes.sees (by decide)
  obtain ⟨base, hbase, hbaseSame⟩ := hbase.expression hlaidBase hstop
  obtain ⟨exponent, hexponent, hexponentSame⟩ := hexponent.expression hlaidExponent hend
  exact ⟨_, .power hbase htakes hexponent, by simp [hbaseSame, hsignSame, hexponentSame]⟩

/-- A step stands on the line of its operand, since nothing is laid out on a line of its own. -/
theorem stepped (hoperand : (Phrase.expression .chain).ReadsBack [left])
    (hsign : sign.IsToken Kind.isStep) :
    (Phrase.expression .stepped).ReadsBack [.node .singleExpression [left, sign] span] := by
  intro c c₂ hlaid _
  simp only [laid_node, laid_cons_cons] at hlaid
  obtain ⟨c₁, hlaidOperand, hlaidSign⟩ := hlaid
  obtain ⟨sign, htakes, hsignSame⟩ := hsign.takes hlaidSign
  have hline := hsign.newlineBefore hlaidSign
  have hstop : Strength.chain.StopsAt c₁ :=
    Strength.stopsAt_of_accepts .stepped htakes.sees (by decide)
  obtain ⟨operand, hoperand, hoperandSame⟩ := hoperand.expression hlaidOperand hstop
  exact ⟨_, .stepped hoperand (htakes.mono fun h => by simp [h, hline]),
    by simp [hoperandSame, hsignSame]⟩

/-! ### Accesses -/

/-- The point of a member ends the subject. -/
theorem member (hsubject : (Phrase.expression .chain).ReadsBack [subject])
    (hdot : sign.IsToken (· == .mark .dot)) (hname : Phrase.memberName.ReadsBack [value]) :
    (Phrase.expression .chain).ReadsBack [.node .singleExpression [subject, sign, value] span] := by
  intro c c₃ hlaid _
  simp only [laid_node, laid_cons_cons] at hlaid
  obtain ⟨c₁, hlaidSubject, c₂, hlaidDot, hlaidName⟩ := hlaid
  obtain ⟨dot, htakes, hdotSame⟩ := hdot.takes hlaidDot
  have hstop : Strength.primary.StopsAt c₁ := Strength.stopsAt_of_sees htakes.sees (by decide)
  obtain ⟨subject, hsubject, hsubjectSame⟩ := hsubject.one hlaidSubject hstop
  obtain ⟨name, hname, hnameSame⟩ := hname.one hlaidName trivial
  exact ⟨_, .member hsubject htakes hname, by simp [hsubjectSame, hdotSame, hnameSame]⟩

/-- The opening bracket of an index ends the subject, and the closing one ends the index. -/
theorem index (hsubject : (Phrase.expression .chain).ReadsBack [subject])
    (hleft : left.IsToken (· == .mark .openBracket)) (hindex : Phrase.sequence.ReadsBack [value])
    (hright : right.IsToken (· == .mark .closeBracket)) :
    (Phrase.expression .chain).ReadsBack
      [.node .singleExpression [subject, left, value, right] span] := by
  intro c c₄ hlaid _
  simp only [laid_node, laid_cons_cons] at hlaid
  obtain ⟨c₁, hlaidSubject, c₂, hlaidLeft, c₃, hlaidIndex, hlaidRight⟩ := hlaid
  obtain ⟨left, hleft, hleftSame⟩ := hleft.takes hlaidLeft
  obtain ⟨right, hright, hrightSame⟩ := hright.takes hlaidRight
  have hstop : Strength.primary.StopsAt c₁ := Strength.stopsAt_of_sees hleft.sees (by decide)
  obtain ⟨subject, hsubject, hsubjectSame⟩ := hsubject.one hlaidSubject hstop
  have hend := endsList_of_sees hright.sees rfl (by decide)
  obtain ⟨index, hindex, hindexSame⟩ := hindex.one hlaidIndex hend
  exact ⟨_, .index hsubject hleft hindex hright,
    by simp [hsubjectSame, hleftSame, hindexSame, hrightSame]⟩

/-- What arguments begin with ends the subject of a call. -/
theorem call (hsubject : (Phrase.expression .chain).ReadsBack [subject])
    (harguments : Phrase.arguments.ReadsBack [value]) :
    (Phrase.expression .chain).ReadsBack [.node .singleExpression [subject, value] span] := by
  intro c c₂ hlaid _
  simp only [laid_node, laid_cons_cons] at hlaid
  obtain ⟨c₁, hlaidSubject, hlaidArguments⟩ := hlaid
  obtain ⟨arguments, harguments, hargumentsSame⟩ := harguments.one hlaidArguments trivial
  have hstop : Strength.primary.StopsAt c₁ :=
    Strength.stopsAt_of_sees harguments.begins (by decide)
  obtain ⟨subject, hsubject, hsubjectSame⟩ := hsubject.one hlaidSubject hstop
  exact ⟨_, .call hsubject harguments, by simp [hsubjectSame, hargumentsSame]⟩

/-! ### Brackets -/

/-- The elements of an array are read up to the closing bracket. -/
theorem array (hleft : left.IsToken (· == .mark .openBracket)) (h : Phrase.elements.ReadsBack items)
    (hright : right.IsToken (· == .mark .closeBracket)) :
    (Phrase.expression .primary).ReadsBack [.node .singleExpression
      [.node .arrayLiteral [left, .node .elementList items listSpan, right] innerSpan] span] := by
  intro c c₃ hlaid _
  simp only [laid_node, laid_cons_cons] at hlaid
  obtain ⟨c₁, hlaidLeft, c₂, hlaidElements, hlaidRight⟩ := hlaid
  obtain ⟨left, hleft, hleftSame⟩ := hleft.takes hlaidLeft
  obtain ⟨right, hright, hrightSame⟩ := hright.takes hlaidRight
  obtain ⟨elements, helements, helementsSame⟩ := h c₁ c₂ hlaidElements hright.sees
  exact ⟨_, .array hleft helements hright, by simp [hleftSame, helementsSame, hrightSame]⟩

/-- What stands in parentheses is read up to the closing one. -/
theorem parenthesized (hleft : left.IsToken (· == .mark .openParen))
    (h : Phrase.sequence.ReadsBack [value]) (hright : right.IsToken (· == .mark .closeParen)) :
    (Phrase.expression .primary).ReadsBack [.node .singleExpression [left, value, right] span] := by
  intro c c₃ hlaid _
  simp only [laid_node, laid_cons_cons] at hlaid
  obtain ⟨c₁, hlaidLeft, c₂, hlaidInner, hlaidRight⟩ := hlaid
  obtain ⟨left, hleft, hleftSame⟩ := hleft.takes hlaidLeft
  obtain ⟨right, hright, hrightSame⟩ := hright.takes hlaidRight
  have hend := endsList_of_sees hright.sees rfl (by decide)
  obtain ⟨inner, hinner, hinnerSame⟩ := h.one hlaidInner hend
  exact ⟨_, .parenthesized hleft hinner hright, by simp [hleftSame, hinnerSame, hrightSame]⟩

/-- Arguments are read up to the closing parenthesis. -/
theorem arguments (hleft : left.IsToken (· == .mark .openParen))
    (h : (Phrase.list .argument).ReadsBack items)
    (hright : right.IsToken (· == .mark .closeParen)) :
    Phrase.arguments.ReadsBack [.node .arguments (left :: items ++ [right]) span] := by
  intro c c₃ hlaid _
  simp only [laid_node, List.cons_append] at hlaid
  obtain ⟨c₁, hlaidLeft, hlater⟩ := laid_cons.mp hlaid
  obtain ⟨c₂, hlaidItems, hlaidRight⟩ := laid_append.mp hlater
  obtain ⟨left, hleft, hleftSame⟩ := hleft.takes hlaidLeft
  obtain ⟨right, hright, hrightSame⟩ := hright.takes hlaidRight
  have hend := endsList_of_sees hright.sees rfl (by decide)
  obtain ⟨items, hitems, hitemsSame⟩ := h c₁ c₂ hlaidItems ⟨by decide, hend⟩
  have hbegins : c₁.sees Kind.startsExpression = true := hitems.begins
  exact ⟨_, .arguments hleft (sees_kind_eq_false _ hbegins rfl) hitems hright,
    by simp [hleftSame, hitemsSame, hrightSame]⟩

/-- An element is read up to the comma behind it. -/
theorem element (hvalue : (Phrase.expression .assignment).ReadsBack [value])
    (hcomma : comma.IsToken (· == .mark .comma)) (hrest : Phrase.elements.ReadsBack rest) :
    Phrase.elements.ReadsBack (.node .arrayElement [value] span :: comma :: rest) := by
  intro c c₃ hlaid hend
  obtain ⟨c₁, hlaidValue, hlater⟩ := laid_cons.mp hlaid
  obtain ⟨c₂, hlaidComma, hlaidRest⟩ := laid_cons.mp hlater
  obtain ⟨comma, hcomma, hcommaSame⟩ := hcomma.takes hlaidComma
  have hstop : Strength.assignment.StopsAt c₁ := Strength.stopsAt_of_sees hcomma.sees (by decide)
  obtain ⟨value, hvalue, hvalueSame⟩ := hvalue.expression (laid_node.mp hlaidValue) hstop
  obtain ⟨rest, hrest, hrestSame⟩ := hrest c₂ c₃ hlaidRest hend
  have hbegins : c.sees Kind.startsExpression = true := hvalue.begins
  exact ⟨_, .element (tokens_ne_nil_of_sees hbegins) (sees_kind_eq_false _ hbegins rfl)
    (sees_kind_eq_false _ hbegins rfl) hvalue hcomma hrest,
    by simp [hvalueSame, hcommaSame, hrestSame]⟩

/-! ### Statements -/

/-- A variable is read with its first value. -/
theorem declarator (hname : Phrase.assignable.ReadsBack [name])
    (hsign : sign.IsToken (· == .mark .assign))
    (hvalue : (Phrase.expression .assignment).ReadsBack [value]) :
    Phrase.declarator.ReadsBack [.node .variableDeclaration [name, sign, value] span] := by
  intro c c₃ hlaid hend
  simp only [laid_node, laid_cons_cons] at hlaid
  obtain ⟨c₁, hlaidName, c₂, hlaidSign, hlaidValue⟩ := hlaid
  obtain ⟨sign, hsign, hsignSame⟩ := hsign.takes hlaidSign
  obtain ⟨name, hname, hnameSame⟩ := hname.one hlaidName trivial
  obtain ⟨value, hvalue, hvalueSame⟩ := hvalue.expression hlaidValue hend
  exact ⟨_, .declarator hname hsign hvalue, by simp [hnameSame, hsignSame, hvalueSame]⟩

/-- Variables are read up to the end mark of their statement. -/
theorem variableStatement (hmodifier : keyword.IsToken Kind.isDeclarer)
    (hdeclarators : (Phrase.list .declarator).ReadsBack items)
    (hmark : Produces false .ending [ending]) (hending : Phrase.ending.ReadsBack [ending]) :
    Phrase.variableStatement.ReadsBack [.node .variableStatement
      [.node .variableDeclarationList (.node .varModifier [keyword] innerSpan :: items) listSpan,
        ending] span] := by
  intro c c₃ hlaid _
  simp only [laid_node, laid_cons_cons] at hlaid
  obtain ⟨c₂, hlaidList, hlaidEnding⟩ := hlaid
  obtain ⟨c₁, hlaidModifier, hlaidDeclarators⟩ := laid_cons.mp hlaidList
  obtain ⟨modifier, hmodifier, hmodifierSame⟩ := hmodifier.takes (laid_node.mp hlaidModifier)
  have hend := endsList_of_sees (hmark.sees_semicolon hlaidEnding) rfl (by decide)
  obtain ⟨declarators, hdeclarators, hdeclaratorsSame⟩ :=
    hdeclarators c₁ c₂ hlaidDeclarators ⟨by decide, hend⟩
  obtain ⟨ending, hending, hendingSame⟩ := hending.one hlaidEnding trivial
  exact ⟨_, .variableStatement hmodifier hdeclarators hending,
    by simp [hmodifierSame, hdeclaratorsSame, hendingSame]⟩

/-- An expression that is a statement is read up to its end mark. -/
theorem expressionStatement (hsequence : Phrase.sequence.ReadsBack [value])
    (hmark : Produces false .ending [ending]) (hending : Phrase.ending.ReadsBack [ending]) :
    Phrase.expressionStatement.ReadsBack [.node .expressionStatement [value, ending] span] := by
  intro c c₂ hlaid _
  simp only [laid_node, laid_cons_cons] at hlaid
  obtain ⟨c₁, hlaidSequence, hlaidEnding⟩ := hlaid
  have hend := endsList_of_sees (hmark.sees_semicolon hlaidEnding) rfl (by decide)
  obtain ⟨sequence, hsequence, hsequenceSame⟩ := hsequence.one hlaidSequence hend
  obtain ⟨ending, hending, hendingSame⟩ := hending.one hlaidEnding trivial
  exact ⟨_, .expressionStatement hsequence hending, by simp [hsequenceSame, hendingSame]⟩

/-- A value that is given back is read up to the end mark. -/
theorem returnStatement (hkeyword : keyword.IsToken (· == .word .returnWord))
    (hvalue : (Phrase.optional .sequence).ReadsBack items)
    (hmark : Produces false .ending [ending]) (hending : Phrase.ending.ReadsBack [ending]) :
    Phrase.returnStatement.ReadsBack
      [.node .returnStatement (keyword :: items ++ [ending]) span] := by
  intro c c₃ hlaid _
  simp only [laid_node, List.cons_append] at hlaid
  obtain ⟨c₁, hlaidKeyword, hlater⟩ := laid_cons.mp hlaid
  obtain ⟨c₂, hlaidValue, hlaidEnding⟩ := laid_append.mp hlater
  obtain ⟨keyword, hkeyword, hkeywordSame⟩ := hkeyword.takes hlaidKeyword
  obtain ⟨value, hvalue, hvalueSame⟩ := hvalue c₁ c₂ hlaidValue (hmark.sees_semicolon hlaidEnding)
  obtain ⟨ending, hending, hendingSame⟩ := hending.one hlaidEnding trivial
  exact ⟨_, .returnStatement hkeyword hvalue hending,
    by simp [hkeywordSame, hvalueSame, hendingSame]⟩

/-- The parameters of a function are read up to the closing parenthesis, and its elements up to
the closing brace. -/
theorem function (hkeyword : keyword.IsToken (· == .word .functionWord))
    (hname : Phrase.identifier.ReadsBack [name]) (hleft : left.IsToken (· == .mark .openParen))
    (hparameters : (Phrase.optional .parameterList).ReadsBack items)
    (hright : right.IsToken (· == .mark .closeParen))
    (hopening : opening.IsToken (· == .mark .openBrace))
    (helements : Phrase.sourceElements.ReadsBack [body])
    (hclosing : closing.IsToken (· == .mark .closeBrace)) :
    Phrase.function.ReadsBack [.node .functionDeclaration ([keyword, name, left] ++ items ++
      [right, .node .functionBody [opening, body, closing] innerSpan]) span] := by
  intro c c₈ hlaid _
  simp only [laid_node, laid_append, laid_cons_cons] at hlaid
  obtain ⟨c₄, ⟨c₃, ⟨c₁, hlaidKeyword, c₂, hlaidName, hlaidLeft⟩, hlaidParameters⟩, c₅, hlaidRight,
    c₆, hlaidOpening, c₇, hlaidElements, hlaidClosing⟩ := hlaid
  obtain ⟨keyword, hkeyword, hkeywordSame⟩ := hkeyword.takes hlaidKeyword
  obtain ⟨left, hleft, hleftSame⟩ := hleft.takes hlaidLeft
  obtain ⟨right, hright, hrightSame⟩ := hright.takes hlaidRight
  obtain ⟨opening, hopening, hopeningSame⟩ := hopening.takes hlaidOpening
  obtain ⟨closing, hclosing, hclosingSame⟩ := hclosing.takes hlaidClosing
  obtain ⟨name, hname, hnameSame⟩ := hname.one hlaidName trivial
  obtain ⟨parameters, hparameters, hparametersSame⟩ :=
    hparameters c₃ c₄ hlaidParameters hright.sees
  obtain ⟨elements, helements, helementsSame⟩ := helements.one hlaidElements (.inl hclosing.sees)
  exact ⟨_, .function hkeyword hname hleft hparameters hright hopening helements hclosing,
    by simp [hkeywordSame, hnameSame, hleftSame, hparametersSame, hrightSame, hopeningSame,
      helementsSame, hclosingSame]⟩

/-- The statements of a block are read up to the closing brace. -/
theorem block (hopening : opening.IsToken (· == .mark .openBrace))
    (h : (Phrase.many .statement).ReadsBack items)
    (hclosing : closing.IsToken (· == .mark .closeBrace)) :
    Phrase.block.ReadsBack
      [.node .block [opening, .node .statementList items listSpan, closing] span] := by
  intro c c₃ hlaid _
  simp only [laid_node, laid_cons_cons] at hlaid
  obtain ⟨c₁, hlaidOpening, c₂, hlaidStatements, hlaidClosing⟩ := hlaid
  obtain ⟨opening, hopening, hopeningSame⟩ := hopening.takes hlaidOpening
  obtain ⟨closing, hclosing, hclosingSame⟩ := hclosing.takes hlaidClosing
  obtain ⟨statements, hstatements, hstatementsSame⟩ :=
    h c₁ c₂ hlaidStatements ⟨by decide, .inl hclosing.sees⟩
  exact ⟨_, .block hopening hstatements hclosing,
    by simp [hopeningSame, hstatementsSame, hclosingSame]⟩

section

variable {test : Kind → Bool} (hkeyword : keyword.IsToken test)
  (hleft : left.IsToken (· == .mark .openParen))
  (hcondition : Phrase.sequence.ReadsBack [condition])
  (hright : right.IsToken (· == .mark .closeParen))

include hkeyword hleft hcondition hright

/-- A keyword and a condition in parentheses are read up to what comes behind them. -/
theorem headed {c c₅ : Cursor} (hlaid : c.Laid (keyword :: left :: condition :: right :: rest) c₅) :
    ∃ (keyword' left' right' : Token) (condition' : Tree) (c₁ c₂ c₃ c₄ : Cursor),
      (c.Takes test keyword' c₁ ∧ c₁.Takes (· == .mark .openParen) left' c₂ ∧
        Reads .done .sequence c₂ [condition'] c₃ ∧ c₃.Takes (· == .mark .closeParen) right' c₄ ∧
        c₄.Laid rest c₅) ∧
      keyword'.leaf.withoutSpans = keyword.withoutSpans ∧
      left'.leaf.withoutSpans = left.withoutSpans ∧
      condition'.withoutSpans = condition.withoutSpans ∧
      right'.leaf.withoutSpans = right.withoutSpans := by
  obtain ⟨c₁, hlaidKeyword, hlater⟩ := laid_cons.mp hlaid
  obtain ⟨c₂, hlaidLeft, hlater⟩ := laid_cons.mp hlater
  obtain ⟨c₃, hlaidCondition, hlater⟩ := laid_cons.mp hlater
  obtain ⟨c₄, hlaidRight, hlaidRest⟩ := laid_cons.mp hlater
  obtain ⟨keyword, hkeyword, hkeywordSame⟩ := hkeyword.takes hlaidKeyword
  obtain ⟨left, hleft, hleftSame⟩ := hleft.takes hlaidLeft
  obtain ⟨right, hright, hrightSame⟩ := hright.takes hlaidRight
  have hend := endsList_of_sees hright.sees rfl (by decide)
  obtain ⟨condition, hcondition, hconditionSame⟩ := hcondition.one hlaidCondition hend
  exact ⟨keyword, left, right, condition, c₁, c₂, c₃, c₄,
    ⟨hkeyword, hleft, hcondition, hright, hlaidRest⟩, hkeywordSame, hleftSame, hconditionSame,
    hrightSame⟩

end

/-- A conditional without `else` is read where no `else` follows. -/
theorem ifThen (hkeyword : keyword.IsToken (· == .word .ifWord))
    (hleft : left.IsToken (· == .mark .openParen))
    (hcondition : Phrase.sequence.ReadsBack [condition])
    (hright : right.IsToken (· == .mark .closeParen))
    (hconsequence : Phrase.statement.ReadsBack [consequence]) :
    Phrase.conditional.ReadsBack
      [.node .ifStatement [keyword, left, condition, right, consequence] span] := by
  intro c c₅ hlaid hend
  obtain ⟨keyword, left, right, condition, c₁, c₂, c₃, c₄,
    ⟨hkeyword, hleft, hcondition, hright, hlaidConsequence⟩, hkeywordSame, hleftSame,
    hconditionSame, hrightSame⟩ := headed hkeyword hleft hcondition hright (laid_node.mp hlaid)
  have helse : c₅.sees (· == .word .elseWord) = false := hend _ List.mem_cons_self rfl
  obtain ⟨consequence, hconsequence, hconsequenceSame⟩ :=
    hconsequence.one hlaidConsequence fun _ _ _ => helse
  exact ⟨_, .ifThen hkeyword hleft hcondition hright hconsequence helse,
    by simp [hkeywordSame, hleftSame, hconditionSame, hrightSame, hconsequenceSame]⟩

/-- A conditional with both branches is read: an `else` does follow its consequence, which does not
end open. -/
theorem ifThenElse (hkeyword : keyword.IsToken (· == .word .ifWord))
    (hleft : left.IsToken (· == .mark .openParen))
    (hcondition : Phrase.sequence.ReadsBack [condition])
    (hright : right.IsToken (· == .mark .closeParen))
    (hconsequence : Phrase.statement.ReadsBack [consequence])
    (hclosed : consequence.endsOpen = false) (hotherwise : otherwise.IsToken (· == .word .elseWord))
    (halternative : Phrase.statement.ReadsBack [alternative]) :
    Phrase.conditional.ReadsBack [.node .ifStatement
      [keyword, left, condition, right, consequence, otherwise, alternative] span] := by
  intro c c₇ hlaid hend
  obtain ⟨keyword, left, right, condition, c₁, c₂, c₃, c₄,
    ⟨hkeyword, hleft, hcondition, hright, hlater⟩, hkeywordSame, hleftSame, hconditionSame,
    hrightSame⟩ := headed hkeyword hleft hcondition hright (laid_node.mp hlaid)
  simp only [laid_cons_cons] at hlater
  obtain ⟨c₅, hlaidConsequence, c₆, hlaidOtherwise, hlaidAlternative⟩ := hlater
  obtain ⟨otherwise, hotherwise, hotherwiseSame⟩ := hotherwise.takes hlaidOtherwise
  obtain ⟨consequence, hconsequence, hconsequenceSame⟩ :=
    hconsequence.one hlaidConsequence (by simp [Phrase.MayEnd, hclosed])
  obtain ⟨alternative, halternative, halternativeSame⟩ :=
    halternative.one hlaidAlternative (by simpa [Phrase.MayEnd, endsOpen] using hend)
  exact ⟨_, .ifThenElse hkeyword hleft hcondition hright hconsequence hotherwise halternative,
    by simp [hkeywordSame, hleftSame, hconditionSame, hrightSame, hconsequenceSame,
      hotherwiseSame, halternativeSame]⟩

/-- A loop is read up to where its body may end. -/
theorem loop (hkeyword : keyword.IsToken (· == .word .whileWord))
    (hleft : left.IsToken (· == .mark .openParen))
    (hcondition : Phrase.sequence.ReadsBack [condition])
    (hright : right.IsToken (· == .mark .closeParen)) (hbody : Phrase.statement.ReadsBack [body]) :
    Phrase.loop.ReadsBack
      [.node .iterationStatement [keyword, left, condition, right, body] span] := by
  intro c c₅ hlaid hend
  obtain ⟨keyword, left, right, condition, c₁, c₂, c₃, c₄,
    ⟨hkeyword, hleft, hcondition, hright, hlaidBody⟩, hkeywordSame, hleftSame, hconditionSame,
    hrightSame⟩ := headed hkeyword hleft hcondition hright (laid_node.mp hlaid)
  obtain ⟨body, hbody, hbodySame⟩ :=
    hbody.one hlaidBody (by simpa [Phrase.MayEnd, endsOpen] using hend)
  exact ⟨_, .loop hkeyword hleft hcondition hright hbody,
    by simp [hkeywordSame, hleftSame, hconditionSame, hrightSame, hbodySame]⟩

end Phrase.ReadsBack

/-! ## All productions -/

/-- The trees of the grammar that leave out no end mark are read back. -/
theorem Produces.readsBack {phrase : Phrase} {trees : List Tree} (h : Produces false phrase trees) :
    phrase.ReadsBack trees := by
  induction h with
  | oneItem _ ih =>
    rintro c c₁ hlaid ⟨hitem, hstop, hcomma⟩
    obtain ⟨read, hread, hsame⟩ := ih.item hitem hlaid hstop
    exact ⟨_, .oneItem hread hcomma, by simp [hsame]⟩
  | moreItems _ hcomma _ ihfirst ihrest => exact ihfirst.moreItems hcomma ihrest
  | none =>
    rintro c c₁ hlaid ⟨hitem, hend⟩
    cases laid_nil.mp hlaid
    exact ⟨[], .none hend, rfl⟩
  | more _ _ ihfirst ihrest => exact ihfirst.more ihrest
  | absent => exact .absent
  | present _ ih => exact ih.present
  -- Names
  | identifier hname =>
    intro c c₁ hlaid _
    obtain ⟨name, htakes, hsame⟩ := hname.takes (laid_node.mp hlaid)
    exact ⟨_, .identifier htakes, by simp [hsame]⟩
  | memberName _ ih =>
    intro c c₁ hlaid _
    obtain ⟨read, hread, hsame⟩ := ih.one (laid_node.mp hlaid) trivial
    cases hread with
    | identifier htakes => exact ⟨_, .memberName htakes, by simpa using hsame⟩
  | memberWord hword =>
    intro c c₁ hlaid _
    obtain ⟨word, htakes, hsame⟩ := hword.takes (laid_node.mp hlaid)
    exact ⟨_, .memberWord htakes, by simp [hsame]⟩
  | assignable _ ih =>
    intro c c₁ hlaid _
    obtain ⟨name, hname, hsame⟩ := ih.one (laid_node.mp hlaid) trivial
    exact ⟨_, .assignable hname, by simp [hsame]⟩
  -- Expressions
  | tighter htighter _ ih => exact ih.tighter htighter
  | assignment _ hsign _ ihtarget ihvalue =>
    refine ihtarget.assigned (fun c c₁ hlaid => ?_) ihvalue
    obtain ⟨sign, htakes, hsame⟩ := hsign.takes hlaid
    exact ⟨sign, htakes.plain.1, by rw [htakes.plain.2, hsame]⟩
  | compound _ hsign _ ihtarget ihvalue =>
    refine ihtarget.assigned (fun c c₁ hlaid => ?_) ihvalue
    obtain ⟨sign, htakes, hsame⟩ := hsign.takes (laid_node.mp hlaid)
    exact ⟨sign, htakes.compound.1, by simp [htakes.compound.2, hsame]⟩
  | binary _ hsign _ ihleft ihright => exact ihleft.binary hsign ihright
  | power _ hsign _ ihbase ihexponent => exact ihbase.power hsign ihexponent
  | signed hsign _ ih =>
    intro c c₂ hlaid hend
    simp only [laid_node, laid_cons_cons] at hlaid
    obtain ⟨c₁, hlaidSign, hlaidOperand⟩ := hlaid
    obtain ⟨sign, htakes, hsignSame⟩ := hsign.takes hlaidSign
    obtain ⟨operand, hoperand, hoperandSame⟩ := ih.expression hlaidOperand hend
    exact ⟨_, .signed htakes hoperand, by simp [hsignSame, hoperandSame]⟩
  | stepped _ hsign ih => exact ih.stepped hsign
  | member _ hdot _ ihsubject ihname => exact ihsubject.member hdot ihname
  | index _ hleft _ hright ihsubject ihindex => exact ihsubject.index hleft ihindex hright
  | call _ _ ihsubject iharguments => exact ihsubject.call iharguments
  | name _ ih =>
    intro c c₁ hlaid _
    obtain ⟨read, hread, hsame⟩ := ih.one (laid_node.mp hlaid) trivial
    cases hread with
    | identifier htakes =>
      obtain ⟨hatom, htree⟩ := htakes.name
      exact ⟨_, .atom hatom, by simpa [htree] using hsame⟩
  | number hnumber =>
    intro c c₁ hlaid _
    simp only [laid_node] at hlaid
    obtain ⟨number, htakes, hsame⟩ := hnumber.takes hlaid
    obtain ⟨hatom, htree⟩ := htakes.number
    exact ⟨_, .atom hatom, by simp [htree, hsame]⟩
  | constant hconstant =>
    intro c c₁ hlaid _
    simp only [laid_node] at hlaid
    obtain ⟨constant, htakes, hsame⟩ := hconstant.takes hlaid
    obtain ⟨hatom, htree⟩ := htakes.constant
    exact ⟨_, .atom hatom, by simp [htree, hsame]⟩
  | array hleft _ hright ih => exact .array hleft ih hright
  | parenthesized hleft _ hright ih => exact .parenthesized hleft ih hright
  -- Parts of expressions
  | sequence _ ih =>
    intro c c₁ hlaid hend
    obtain ⟨items, hitems, hsame⟩ := ih c c₁ (laid_node.mp hlaid) ⟨by decide, hend⟩
    exact ⟨_, .sequence hitems, by simp [hsame]⟩
  | argument _ ih =>
    intro c c₁ hlaid hend
    obtain ⟨value, hvalue, hsame⟩ := ih.expression (laid_node.mp hlaid) hend
    exact ⟨_, .argument hvalue, by simp [hsame]⟩
  | noArguments hleft hright =>
    intro c c₂ hlaid _
    simp only [laid_node, laid_cons_cons] at hlaid
    obtain ⟨c₁, hlaidLeft, hlaidRight⟩ := hlaid
    obtain ⟨left, hleft, hleftSame⟩ := hleft.takes hlaidLeft
    obtain ⟨right, hright, hrightSame⟩ := hright.takes hlaidRight
    exact ⟨_, .noArguments hleft hright, by simp [hleftSame, hrightSame]⟩
  | arguments hleft _ hright ih => exact .arguments hleft ih hright
  | noElements =>
    intro c c₁ hlaid hend
    cases laid_nil.mp hlaid
    exact ⟨[], .noElements (.inr hend), rfl⟩
  | skippedElement hcomma _ ih =>
    intro c c₂ hlaid hend
    obtain ⟨c₁, hlaidComma, hlaidRest⟩ := laid_cons.mp hlaid
    obtain ⟨comma, hcomma, hcommaSame⟩ := hcomma.takes hlaidComma
    obtain ⟨rest, hrest, hrestSame⟩ := ih c₁ c₂ hlaidRest hend
    exact ⟨_, .skippedElement hcomma hrest, by simp [hcommaSame, hrestSame]⟩
  | lastElement _ ih =>
    intro c c₁ hlaid hend
    have hstop := (endsList_of_sees hend rfl (by decide)).1
    obtain ⟨value, hvalue, hsame⟩ := ih.expression (laid_node.mp hlaid) hstop
    have hbegins : c.sees Kind.startsExpression = true := hvalue.begins
    exact ⟨_, .lastElement (tokens_ne_nil_of_sees hbegins) (sees_kind_eq_false _ hbegins rfl)
      (sees_kind_eq_false _ hbegins rfl) hvalue hend, by simp [hsame]⟩
  | element _ hcomma _ ihvalue ihrest => exact ihvalue.element hcomma ihrest
  -- Statements
  | endMark hsemicolon =>
    intro c c₁ hlaid _
    obtain ⟨semicolon, hsemicolon, hsame⟩ := hsemicolon.takes (laid_node.mp hlaid)
    exact ⟨_, .endMark hsemicolon, by simp [hsame]⟩
  | noEndMark homits => cases homits
  | bareDeclarator _ ih =>
    intro c c₁ hlaid hend
    obtain ⟨name, hname, hsame⟩ := ih.one (laid_node.mp hlaid) trivial
    have hsign := sees_eq_false_mono (Strength.StopsAt.sees hend) Kind.isAssignment_of_assign
    exact ⟨_, .bareDeclarator hname hsign, by simp [hsame]⟩
  | declarator _ hsign _ ihname ihvalue => exact ihname.declarator hsign ihvalue
  | variableStatement hmodifier _ hending ihdeclarators ihending =>
    exact .variableStatement hmodifier ihdeclarators hending ihending
  | emptyStatement hsemicolon =>
    intro c c₁ hlaid _
    obtain ⟨semicolon, hsemicolon, hsame⟩ := hsemicolon.takes (laid_node.mp hlaid)
    exact ⟨_, .emptyStatement hsemicolon, by simp [hsame]⟩
  | expressionStatement _ hending ihsequence ihending =>
    exact ihsequence.expressionStatement hending ihending
  | returnStatement hkeyword _ hending ihvalue ihending =>
    exact .returnStatement hkeyword ihvalue hending ihending
  | parameter _ ih =>
    intro c c₁ hlaid _
    obtain ⟨name, hname, hsame⟩ := ih.one (laid_node.mp hlaid) trivial
    exact ⟨_, .parameter hname, by simp [hsame]⟩
  | parameterList _ ih =>
    intro c c₁ hlaid hend
    obtain ⟨parameters, hparameters, hsame⟩ :=
      ih c c₁ (laid_node.mp hlaid) ⟨by decide, endsList_of_sees hend rfl (by decide)⟩
    exact ⟨_, .parameterList hparameters, by simp [hsame]⟩
  | function hkeyword _ hleft _ hright hopening _ hclosing ihname ihparameters ihelements =>
    exact .function hkeyword ihname hleft ihparameters hright hopening ihelements hclosing
  | block hopening _ hclosing ih => exact .block hopening ih hclosing
  | ifThen hkeyword hleft _ hright _ ihcondition ihconsequence =>
    exact .ifThen hkeyword hleft ihcondition hright ihconsequence
  | ifThenElse hkeyword hleft _ hright _ hclosed hotherwise _ ihcondition ihconsequence
      ihalternative =>
    exact .ifThenElse hkeyword hleft ihcondition hright ihconsequence hclosed hotherwise
      ihalternative
  | loop hkeyword hleft _ hright _ ihcondition ihbody =>
    exact .loop hkeyword hleft ihcondition hright ihbody
  | @statement form _ _ hform _ ih =>
    intro c c₁ hlaid hend
    obtain ⟨tree, htree, hsame⟩ := ih.form hform (laid_node.mp hlaid)
      (by simpa [Phrase.MayEnd, endsOpen] using hend)
    exact ⟨_, .statement htree, by simp [hsame]⟩
  | sourceElement _ ih =>
    intro c c₁ hlaid hend
    obtain ⟨statement, hstatement, hsame⟩ := ih.one (laid_node.mp hlaid) fun _ _ _ => hend
    exact ⟨_, .sourceElement hstatement, by simp [hsame]⟩
  | sourceElements _ ih =>
    intro c c₁ hlaid hend
    obtain ⟨elements, helements, hsame⟩ := ih c c₁ (laid_node.mp hlaid) ⟨by decide, hend⟩
    exact ⟨_, .sourceElements helements, by simp [hsame]⟩
  | program _ ih =>
    intro c c₁ hlaid hend
    simp only [laid_node, laid_cons_cons, laid_endOfInput] at hlaid
    obtain ⟨_, helements, rfl⟩ := hlaid
    obtain ⟨elements, helements, hsame⟩ := ih.one helements (.inr hend)
    exact ⟨_, .program helements hend, by simp [hsame, endLeaf]⟩

/-- A program of the grammar is read from the text that it is written as. -/
theorem Produces.exists_reads {tree : Tree} (h : Produces false .program [tree]) :
    ∃ read c, Reads .done .program (.ofSource tree.written) [read] c ∧
      read.withoutSpans = tree.withoutSpans := by
  have htexts : allLeafTexts [tree] = tree.leafTexts := by
    rw [allLeafTexts, allLeafTexts, List.append_nil]
  obtain ⟨c, hspelt, hend⟩ := spelt_ofSource h.areSpelled
  have hlaid : (Cursor.ofSource tree.written).Laid [tree] c := by
    rw [htexts] at hspelt
    unfold Laid
    rw [htexts]
    exact hspelt
  obtain ⟨read, hread, hsame⟩ := h.readsBack.one hlaid hend
  exact ⟨read, c, hread, hsame⟩

/-- A tree of the grammar in which no end mark is left out is written as a source text whose tree
it is, but for the spans. -/
theorem parse_written {tree : Tree} (h : Produces false .program [tree]) :
    ∃ read, Tree.parse tree.written = .ok read ∧ read.withoutSpans = tree.withoutSpans := by
  obtain ⟨read, c, hreads, hsame⟩ := h.exists_reads
  exact ⟨read, parse_eq_ok_iff.mpr ⟨c, hreads⟩, hsame⟩

namespace Tree

/-- A node that has no place in a text. -/
def unplaced (rule : Rule) (children : List Tree) : Tree := .node rule children (Span.point 0)

/-- A token that has no place in a text. -/
def unplacedToken (kind : Kind) (text : String) : Tree := .leaf (.ofKind kind) text (Span.point 0)

/-- The expression that a name stands for. -/
def unplacedName (text : String) : Tree :=
  unplaced .singleExpression [unplaced .identifier [unplacedToken .name text]]

/-- The tree of a conditional: `if ( a ) b = c || d && e ; else ;`. -/
def choice : Tree :=
  let mark (mark : Mark) := unplacedToken (.mark mark) mark.spelling
  let word (word : Word) := unplacedToken (.word word) word.spelling
  let both := unplaced .singleExpression [unplacedName "d", mark .bothAnd, unplacedName "e"]
  let either := unplaced .singleExpression [unplacedName "c", mark .eitherOr, both]
  let assignment := unplaced .singleExpression [unplacedName "b", mark .assign, either]
  let consequence := unplaced .expressionStatement
    [unplaced .expressionSequence [assignment], unplaced .eos [mark .semicolon]]
  let conditional := unplaced .ifStatement
    [word .ifWord, mark .openParen, unplaced .expressionSequence [unplacedName "a"],
      mark .closeParen, unplaced .statement [consequence], word .elseWord,
      unplaced .statement [unplaced .emptyStatement [mark .semicolon]]]
  unplaced .program
    [unplaced .sourceElements [unplaced .sourceElement [unplaced .statement [conditional]]],
      .leaf .endOfInput "" (Span.point 0)]

/-- A mark is a token. -/
theorem isToken_mark {test : Kind → Bool} (mark : Mark) (h : test (.mark mark) = true) :
    (unplacedToken (.mark mark) mark.spelling).IsToken test :=
  .leaf h (Kind.noConfusion ·) (Scan.spells_mark mark) _

/-- A word is a token. -/
theorem isToken_word {test : Kind → Bool} (word : Word) (h : test (.word word) = true) :
    (unplacedToken (.word word) word.spelling).IsToken test :=
  .leaf h (Kind.noConfusion ·) (Scan.spells_word word) _

/-- A name is an expression. -/
theorem produces_unplacedName (text : String) (h : Spells text .name) (strength : Strength) :
    Produces false (.expression strength) [unplacedName text] := by
  have hname : (unplacedToken .name text).IsToken (· == .name) := .leaf rfl (by decide) h _
  exact Produces.of_primary (.name (.identifier hname)) strength

/-- The conditional is a program. -/
theorem produces_choice : Produces false .program [choice] := by
  have ha := produces_unplacedName "a" (Scan.spells_iff.mpr ⟨'a', [], rfl, rfl, rfl⟩)
  have hb := produces_unplacedName "b" (Scan.spells_iff.mpr ⟨'b', [], rfl, rfl, rfl⟩)
  have hc := produces_unplacedName "c" (Scan.spells_iff.mpr ⟨'c', [], rfl, rfl, rfl⟩)
  have hd := produces_unplacedName "d" (Scan.spells_iff.mpr ⟨'d', [], rfl, rfl, rfl⟩)
  have he := produces_unplacedName "e" (Scan.spells_iff.mpr ⟨'e', [], rfl, rfl, rfl⟩)
  have hconditional : Phrase.conditional ∈ Phrase.statementForms := by decide
  have hexpression : Phrase.expressionStatement ∈ Phrase.statementForms := by decide
  have hempty : Phrase.emptyStatement ∈ Phrase.statementForms := by decide
  refine .program (.sourceElements (.more (.sourceElement (.statement hconditional ?_)) .none))
  refine .ifThenElse (isToken_word .ifWord rfl) (isToken_mark .openParen rfl)
    (.sequence (.oneItem (ha _))) (isToken_mark .closeParen rfl) (.statement hexpression ?_) rfl
    (isToken_word .elseWord rfl) (.statement hempty ?_)
  · refine .expressionStatement (.sequence (.oneItem ?_)) (.endMark (isToken_mark .semicolon rfl))
    refine .assignment (hb _) (isToken_mark .assign rfl) (.tighter rfl ?_)
    refine .binary (hc _) (isToken_mark .eitherOr rfl) ?_
    exact .binary (hd (.level .conjunction)) (isToken_mark .bothAnd rfl) (he _)
  · exact .emptyStatement (isToken_mark .semicolon rfl)

end Tree

/-- The conditional is read back. -/
theorem parse_written_choice :
    Produces false .program [choice] ∧ choice.written = "if ( a ) b = c || d && e ; else ;" ∧
      ∃ read, Tree.parse choice.written = .ok read ∧
        read.withoutSpans = choice.withoutSpans :=
  ⟨produces_choice, rfl, parse_written produces_choice⟩

end TreeScript
