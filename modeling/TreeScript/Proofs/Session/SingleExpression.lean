import TreeScript.Proofs.Lowering.Assignment
import TreeScript.Proofs.Lowering.Composition
import TreeScript.Proofs.Tree.LineBreaks
import TreeScript.Session

/-!
# Programs of one expression

A source text that is one expression with its end mark is a program of one operation, the one that
the expression is lowered to, and is rejected as the expression is.
-/

namespace TreeScript

open TreeScript.Tree (branch_eq expression wrap)

variable {kind : Kind} {source : String} {tree : Tree} {semicolon : Token} {operation : Operation}
  {outcome : Except CompileError Operation}

/-! ## Reading -/

namespace Scan

/-- One token in front of an end mark, where the end mark does not belong to the token. -/
theorem scanFrom_before_semicolon {first : Char} {tail : List Char}
    (hstart : StartsToken (first :: tail ++ [';']))
    (hread : lexeme first (tail ++ [';']) = ⟨kind, first :: tail, [';']⟩) (offset : Nat) :
    let stop := offset + Source.byteLength (first :: tail)
    scanFrom offset (first :: tail ++ [';']) =
      ⟨[⟨kind, String.ofList (first :: tail), ⟨offset, stop⟩, false⟩,
        ⟨.mark .semicolon, ";", ⟨stop, stop + 1⟩, false⟩], stop + 1, false⟩ := by
  have hsemicolon : lexeme ';' [] = ⟨.mark .semicolon, [';'], []⟩ := by decide
  rw [scanFrom_of_lexeme hstart hread, scanFrom_of_lexeme rfl hsemicolon, scanFrom_nil]
  rfl

end Scan

/-- The cursor at a token and a semicolon. -/
theorem Cursor.ofSource_before_semicolon {first : Char} {tail : List Char}
    (hsource : source.toList = first :: tail ++ [';'])
    (hstart : Scan.StartsToken (first :: tail ++ [';']))
    (hread : Scan.lexeme first (tail ++ [';']) = ⟨kind, first :: tail, [';']⟩) :
    let stop := 0 + Source.byteLength (first :: tail)
    Cursor.ofSource source =
      ⟨[⟨kind, String.ofList (first :: tail), ⟨0, stop⟩, false⟩,
        ⟨.mark .semicolon, ";", ⟨stop, stop + 1⟩, false⟩], stop + 1, false, 0⟩ := by
  rw [Cursor.ofSource, TokenStream.ofSource, hsource, Scan.scanFrom_before_semicolon hstart hread]
  rfl

/-- An element made of an expression and its end mark. The spans are those of the nodes from the
outermost to the innermost. -/
def Tree.ofExpression (expression mark : Tree) (spans : Span × Span × Span × Span) : Tree :=
  .node .sourceElement
    [.node .statement
      [.node .expressionStatement
        [.node .expressionSequence [expression] spans.2.2.2, mark] spans.2.2.1] spans.2.1] spans.1

/-- An expression in front of an end mark is the only element of its source text. -/
theorem Tree.parse_ofExpression {c : Cursor} {endOffset previousEnd : Nat} {newline : Bool}
    (hsource : Cursor.ofSource source = c)
    (h : Reads .done (.expression .power) c [tree] ⟨[semicolon], endOffset, newline, previousEnd⟩)
    (hsemicolon : semicolon.kind = .mark .semicolon) (hkind : c.kind? = some kind)
    (hform : Phrase.ofFirst (some kind) = .expressionStatement)
    (hbrace : kind ≠ .mark .closeBrace) :
    ∃ mark spans more,
      Tree.parse source = .ok (.ofElements [.ofExpression tree mark spans] more) := by
  have hsees (test : Kind → Bool) :
      Cursor.sees ⟨[semicolon], endOffset, newline, previousEnd⟩ test =
        test (.mark .semicolon) := by
    rw [← hsemicolon]
    rfl
  have hsequence := h.sequence_of_power (fun level => (hsees _).trans (by cases level <;> rfl))
    (hsees _) (hsees _)
  have hstatement := Reads.expressionStatement hsequence
    (.endMark (.intro (by rw [hsemicolon]; rfl)))
  have hclosing : c.sees (· == .mark .closeBrace) = false := by
    rw [Cursor.sees, hkind]
    exact beq_eq_false_iff_ne.mpr hbrace
  have htokens : c.tokens ≠ [] := by
    intro hnil
    rw [Cursor.kind?, hnil] at hkind
    cases hkind
  have helements := hstatement.before (hkind ▸ hform) hclosing htokens (.none (.inr rfl))
  rw [← hsource] at helements
  have hparse := Tree.parse_eq_ok_iff.mpr ⟨_, .program (.sourceElements helements) rfl⟩
  simp only [branch_eq, Tree.wrap_eq] at hparse
  exact ⟨_, ⟨_, _, _, _⟩, ⟨_, _, _⟩, hparse⟩

/-! ## Lowering -/

namespace Lowering

variable {state : LoweringState}

/-- A literal is lowered to the constant in it. -/
theorem value_constant (hmode : state.modes.headD .value = .value) (inner : Tree)
    (span around : Span) :
    value (.node .singleExpression [.node .literal [inner] span] around) state =
      ((Tree.node .literal [inner] span).literal.map .literal, state) := by
  have hliteral : value (.node .literal [inner] span) =
      (do return .literal (← (Tree.node .literal [inner] span).literal)) := by
    refine Surface.value_of_visit ?_
    rw [visit.eq_def]
    simp only [map_bind, map_pure]
  have hprimary : primary (.node .literal [inner] span) = value (.node .literal [inner] span) := by
    rw [primary.eq_def]
    rfl
  rw [value_singleExpression, lowerExpression, bind_apply, mode_apply hmode]
  change primary (.node .literal [inner] span) state = _
  rw [hprimary, hliteral]
  cases (Tree.node .literal [inner] span).literal <;> rfl

/-- A negation is lowered to that of the operand. -/
theorem value_negation (hmode : state.modes.headD .value = .value) {operand : Tree}
    (h : value operand state = (.ok operation, state)) (category : Category) (span around : Span) :
    value (.node .singleExpression [.leaf category "-" span, operand] around) state =
      (.ok (.unary .negate operation), state) := by
  rw [value_pair hmode, lowerPair.eq_def]
  change (value operand >>= fun operand =>
    pure (Operation.unary .negate operand) : Lowering Operation) state = _
  rw [bind_apply, h]
  rfl

/-- An element made of an expression appends what the expression is lowered to. -/
theorem operations_ofExpression (h : value tree opened = (outcome, opened)) (mark : Tree)
    (spans : Span × Span × Span × Span) :
    operations (.ofExpression tree mark spans) = outcome.map ([·]) := by
  obtain ⟨element, statement, around, inside⟩ := spans
  have hsequence : value (.node .expressionSequence [tree] inside) = value tree := by
    refine Surface.value_of_visit ?_
    rw [visit.eq_def]
    change some <$> lowerSequence _ [tree] = _
    rw [lowerSequence]
  have hvisit : visit (.ofExpression tree mark ⟨element, statement, around, inside⟩) =
      (value tree >>= fun operation =>
        emit operation (.node .expressionStatement
          [.node .expressionSequence [tree] inside, mark] around) >>= fun _ => pure none) := by
    rw [Tree.ofExpression, visit.eq_def]
    simp only [visitInner]
    rw [visit.eq_def]
    simp only [visitInner]
    rw [visit.eq_def]
    simp only [lowerExpressionStatement]
    have hrule (parent : Tree) : (Tree.node .expressionSequence [tree] inside).requireRule
        .expressionSequence 0 parent = .ok () := if_pos rfl
    simp only [hrule, lift_ok_bind, hsequence, bind_assoc, pure_bind]
  unfold operations
  rw [hvisit, bind_apply, h]
  cases outcome with
  | error error => rfl
  | ok operation => rfl

end Lowering

open Lowering (opened value)

/-- An expression in front of an end mark is a program of one operation, or rejected. -/
theorem Program.ofSource_of_reads {c : Cursor} {endOffset previousEnd : Nat} {newline : Bool}
    (hsource : Cursor.ofSource source = c)
    (h : Reads .done (.expression .power) c [tree] ⟨[semicolon], endOffset, newline, previousEnd⟩)
    (hsemicolon : semicolon.kind = .mark .semicolon) (hkind : c.kind? = some kind)
    (hform : Phrase.ofFirst (some kind) = .expressionStatement) (hbrace : kind ≠ .mark .closeBrace)
    (hvalue : value tree opened = (outcome, opened)) :
    Program.ofSource source = (outcome.map fun operation => ⟨[operation]⟩).mapError .rejected := by
  obtain ⟨mark, spans, more, hparse⟩ :=
    Tree.parse_ofExpression hsource h hsemicolon hkind hform hbrace
  have hbody := Program.body_ofTree_singleton more (.ofExpression tree mark spans)
  rw [Lowering.operations_ofExpression hvalue] at hbody
  have htree : Program.ofTree (.ofElements [.ofExpression tree mark spans] more) =
      outcome.map fun operation => ⟨[operation]⟩ := by
    cases htree : Program.ofTree (.ofElements [.ofExpression tree mark spans] more) with
    | error error =>
      rw [htree] at hbody
      cases outcome with
      | error other =>
        cases hbody
        rfl
      | ok operation => cases hbody
    | ok program =>
      rw [htree] at hbody
      cases outcome with
      | error other => cases hbody
      | ok operation =>
        obtain ⟨body⟩ := program
        cases hbody
        rfl
  rw [Program.ofSource, hparse, ← htree]
  rfl

/-! ## Running -/

namespace Session

variable {literal : Literal}

/-- The session with no values set aside, which is how every program begins. -/
def cleared (session : Session) : Session :=
  { session with machine := { session.machine with stack := [] } }

/-- A program of one expression has its value. -/
theorem evaluate_of_expression {result : Value} (session : Session)
    (hprogram : Program.ofSource source = .ok ⟨[operation]⟩)
    (hstatement : execute 0 session.globals operation =
      (do return .finished (← TreeScript.evaluate 0 session.globals operation)))
    (hvalue : TreeScript.evaluate 0 session.globals operation session.cleared.machine =
      (.ok result, session.cleared.machine)) :
    session.evaluate source = (.ok result, session.cleared) := by
  have hall : executeAll 0 session.globals .null [operation] session.cleared.machine =
      (.ok (.finished result), session.cleared.machine) := by
    rw [executeAll, hstatement, bind_apply, bind_apply, hvalue]
    simp only [executeAll]
    rfl
  have hrun : (Program.run ⟨[operation]⟩ session.globals) session.machine =
      (.ok result, session.cleared.machine) := by
    change (executeAll 0 session.globals .null [operation] >>= fun completion =>
      pure completion.value : Evaluation Value) session.cleared.machine = _
    rw [bind_apply, hall]
    rfl
  rw [evaluate, hprogram]
  change ((Program.run ⟨[operation]⟩ session.globals session.machine).1.mapError Error.failed,
    { session with machine := (Program.run ⟨[operation]⟩ session.globals session.machine).2 }) = _
  rw [hrun]
  rfl

/-- A program of one literal has the value of the literal. -/
theorem evaluate_literal (session : Session)
    (hprogram : Program.ofSource source = .ok ⟨[.literal literal]⟩) :
    session.evaluate source = (.ok (.ofLiteral literal), session.cleared) := by
  refine session.evaluate_of_expression hprogram ?_ ?_
  · rw [execute.eq_def]
  · rw [TreeScript.evaluate]
    rfl

/-- A program of one negated literal has the negated value. -/
theorem evaluate_negation {number : Int64} (session : Session)
    (hprogram : Program.ofSource source = .ok ⟨[.unary .negate (.literal literal)]⟩)
    (hnumber : Value.ofLiteral literal = .int number) :
    session.evaluate source = (.ok (.int (-number)), session.cleared) := by
  refine session.evaluate_of_expression hprogram ?_ ?_
  · rw [execute.eq_def]
  · rw [TreeScript.evaluate, TreeScript.evaluate, hnumber]
    rfl

end Session

end TreeScript
