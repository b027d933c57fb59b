import TreeScript.Lowering.Lower
import TreeScript.Proofs.Outcome
import TreeScript.Proofs.Tree.Spanless

/-!
# Checks on trees

Lowering checks a tree before it relies on it. A check that fails lays the fault on a tree and not
on the state of lowering, and its error carries the span of that tree. Where the trees stand in the
text makes no difference: without spans, a check has the same result, or fails with the same error
at the beginning of the text. `Checked` says both at once, for every check.

Which trees may be at fault is left open. `Heeded` asks of them only that they come with their
children, but for the end marks and empty lists that lowering never finds fault with.
-/

namespace TreeScript

/-! ## Errors -/

/-- The broken rules that concern the state of lowering and not the tree. -/
def Malformed.blamesState : Malformed → Bool
  | stateNotRestored | sink _ | sinksNotRestored | valueInTargetMode | targetOutsideMode => true
  | _ => false

namespace CompileError

/-- Whether a rejection lays the fault on the state of lowering. -/
def blamesState : CompileError → Bool
  | malformed _ cause _ => cause.blamesState
  | _ => false

/-- The error with its span at the beginning of the text. -/
def unplaced : CompileError → CompileError
  | unsupported rule children cause _ => unsupported rule children cause (Span.point 0)
  | malformed rule cause _ => malformed rule cause (Span.point 0)
  | unimplementedLiteral text _ => unimplementedLiteral text (Span.point 0)

/-- The error carries the span of one of the given trees. -/
def PointsAt (blamed : Tree → Prop) (error : CompileError) : Prop :=
  ∃ tree, blamed tree ∧ error.span = tree.span

/-- The error lays the fault on one of the given trees. -/
def Faults (blamed : Tree → Prop) (error : CompileError) : Prop :=
  error.blamesState = false ∧ error.PointsAt blamed

end CompileError

/-- The check with its error at the beginning of the text. -/
abbrev Unplaced {α : Type} (check : Except CompileError α) : Except CompileError α :=
  check.mapError CompileError.unplaced

namespace Tree

variable (tree : Tree)

/-- A leaf has the same text without its span. -/
@[simp] theorem isText_withoutSpans (text : String) :
    tree.withoutSpans.isText text = tree.isText text := by
  simp [isText]

/-- Without spans, the same tree is not supported. -/
@[simp] theorem unsupported_withoutSpans (cause : Unsupported) :
    tree.withoutSpans.unsupported cause = (tree.unsupported cause).unplaced := by
  simp [unsupported, CompileError.unplaced]

/-- Without spans, the same rule is broken. -/
@[simp] theorem malformed_withoutSpans (cause : Malformed) :
    tree.withoutSpans.malformed cause = (tree.malformed cause).unplaced := by
  simp [malformed, CompileError.unplaced]

/-- Without spans, the same literal cannot be read. -/
@[simp] theorem unimplementedLiteral_withoutSpans :
    tree.withoutSpans.unimplementedLiteral = tree.unimplementedLiteral.unplaced := by
  simp [unimplementedLiteral, CompileError.unplaced]

end Tree

/-! ## Trees at fault -/

/-- The statements whose end mark may be left out. -/
def Rule.isEnded : Rule → Bool
  | variableStatement | expressionStatement | returnStatement => true
  | _ => false

/-- The lists that may be empty between two marks. -/
def Rule.enclosed? : Rule → Option Rule
  | functionBody => some sourceElements
  | block => some statementList
  | arrayLiteral => some elementList
  | _ => none

/-- The rules whose nodes have leaves in all of their children. -/
def Rule.isPlain (rule : Rule) : Bool := !rule.isEnded && rule.enclosed?.isNone

/-- Trees that come with their children, apart from end marks and from empty lists between two
marks. -/
structure Heeded (blamed : Tree → Prop) : Prop where
  plain {rule : Rule} {parts : List Tree} {span : Span} :
    blamed (.node rule parts span) → rule.isPlain = true → ∀ part ∈ parts, blamed part
  first {rule : Rule} {first : Tree} {rest : List Tree} {span : Span} :
    blamed (.node rule (first :: rest) span) → blamed first
  ended {rule : Rule} {span : Span} (parts : List Tree) (ending : Tree) :
    blamed (.node rule (parts ++ [ending]) span) → rule.isEnded = true →
      (∀ part ∈ parts, blamed part) ∧ (blamed ending ∨ ending.rule? = some .eos)
  enclosed {rule bare : Rule} {left inner right : Tree} {span : Span} :
    blamed (.node rule [left, inner, right] span) → rule.enclosed? = some bare →
      blamed left ∧ blamed right ∧ (blamed inner ∨ ∃ innerSpan, inner = .node bare [] innerSpan)

/-- All children of a plain tree may be at fault. -/
theorem Heeded.children {blamed : Tree → Prop} (heeded : Heeded blamed) {tree : Tree} {rule : Rule}
    (h : blamed tree) (htree : tree.rule? = some rule) (hrule : rule.isPlain = true) :
    ∀ child ∈ tree.children, blamed child := by
  rcases tree with ⟨other, children, span⟩ | ⟨category, text, span⟩
  · cases htree
    exact heeded.plain h hrule
  · cases htree

/-- All trees come with their children. -/
theorem heeded_all : Heeded fun _ => True where
  plain _ _ _ _ := trivial
  first _ := trivial
  ended _ _ _ _ := ⟨fun _ _ => trivial, .inl trivial⟩
  enclosed _ _ := ⟨trivial, trivial, .inl trivial⟩

/-! ## Checks with and without spans -/

/-- A check and the same check without spans: the results agree, and an error lays the fault on one
of the given trees. -/
structure Checked (blamed : Tree → Prop) {α : Type} (check spanless : Except CompileError α) :
    Prop where
  same : spanless = Unplaced check
  faults : FailsOnly (·.Faults blamed) check

namespace Checked

variable {blamed : Tree → Prop} {α β : Type} {tree : Tree} {error : CompileError}

/-- A check that passes has the same result. -/
theorem ok (result : α) : Checked blamed (.ok result) (.ok result) := ⟨rfl, .ok result⟩

/-- A check that fails lays the fault on a tree. -/
theorem throw (h : error.Faults blamed) :
    Checked blamed (.error error : Except CompileError α) (.error error.unplaced) :=
  ⟨rfl, .error h⟩

/-- A tree that is not supported is at fault. -/
theorem unsupported (h : blamed tree) (cause : Unsupported) :
    Checked blamed (.error (tree.unsupported cause) : Except CompileError α)
      (.error (tree.withoutSpans.unsupported cause)) := by
  rw [Tree.unsupported_withoutSpans]
  exact throw ⟨rfl, tree, h, rfl⟩

/-- A tree that breaks a rule is at fault. -/
theorem malformed (h : blamed tree) {cause : Malformed} (hcause : cause.blamesState = false) :
    Checked blamed (.error (tree.malformed cause) : Except CompileError α)
      (.error (tree.withoutSpans.malformed cause)) := by
  rw [Tree.malformed_withoutSpans]
  exact throw ⟨hcause, tree, h, rfl⟩

/-- A number that cannot be read is at fault. -/
theorem unimplementedLiteral (h : blamed tree) :
    Checked blamed (.error tree.unimplementedLiteral : Except CompileError α)
      (.error tree.withoutSpans.unimplementedLiteral) := by
  rw [Tree.unimplementedLiteral_withoutSpans]
  exact throw ⟨rfl, tree, h, rfl⟩

/-- Checks are made one after another. -/
theorem bind {check spanless : Except CompileError α} {next next' : α → Except CompileError β}
    (h : Checked blamed check spanless)
    (hnext : ∀ result, Checked blamed (next result) (next' result)) :
    Checked blamed (check >>= next) (spanless >>= next') := by
  obtain ⟨rfl, hfaults⟩ := h
  cases check with
  | error cause => exact throw (hfaults cause rfl)
  | ok result => exact hnext result

/-- A check behind a test is made only if the test finds nothing wrong. -/
theorem guard {wrong : Prop} [Decidable wrong] {next next' : Except CompileError α}
    (h : blamed tree) {cause : Malformed} (hcause : cause.blamesState = false)
    (hnext : ¬ wrong → Checked blamed next next') :
    Checked blamed
      (do
        if wrong then MonadExcept.throw (tree.malformed cause)
        next)
      (do
        if wrong then MonadExcept.throw (tree.withoutSpans.malformed cause)
        next') := by
  by_cases hwrong : wrong
  · simp only [if_pos hwrong]
    exact malformed h hcause
  · simp only [if_neg hwrong]
    exact hnext hwrong

end Checked

namespace Tree

variable {blamed : Tree → Prop} {tree : Tree}

/-- A leaf may have to have a given text. -/
theorem checked_requireText (h : blamed tree) (text : String) :
    Checked blamed (tree.requireText text) (tree.withoutSpans.requireText text) := by
  unfold requireText
  rw [isText_withoutSpans, text_withoutSpans]
  split
  · exact .ok ()
  · exact .malformed h rfl

/-- A child may have to have a given rule. -/
theorem checked_requireRule (h : blamed tree) (rule : Rule) (index : Nat) (parent : Tree) :
    Checked blamed (tree.requireRule rule index parent)
      (tree.withoutSpans.requireRule rule index parent.withoutSpans) := by
  unfold requireRule
  rw [rule?_withoutSpans, rule?_withoutSpans]
  split
  · exact .ok ()
  · exact .malformed h rfl

variable (heeded : Heeded blamed)
include heeded

/-- A check on the only child of a plain node. -/
theorem checked_onlyChild {α : Type} {rule : Rule} {next next' : Tree → Except CompileError α}
    (h : blamed tree) (hrule : tree.rule? = some rule) (hplain : rule.isPlain = true)
    (hnext : ∀ child, blamed child → Checked blamed (next child) (next' child.withoutSpans)) :
    Checked blamed (tree.onlyChild >>= next) (tree.withoutSpans.onlyChild >>= next') := by
  rcases tree with ⟨other, children, span⟩ | ⟨category, text, span⟩
  · obtain rfl : other = rule := Option.some.inj hrule
    rcases children with _ | ⟨child, _ | ⟨other, rest⟩⟩
    · exact .unsupported h _
    · exact hnext child (heeded.plain h hplain child List.mem_cons_self)
    · exact .unsupported h _
  · cases hrule

/-- A name is a node with one leaf. -/
theorem checked_identifierName (h : blamed tree) :
    Checked blamed tree.identifierName tree.withoutSpans.identifierName := by
  unfold identifierName
  rw [rule?_withoutSpans]
  refine .guard h rfl fun hrule => checked_onlyChild heeded h (Decidable.not_not.mp hrule) rfl ?_
  intro token htoken
  rw [isLeaf_withoutSpans, text_withoutSpans]
  split
  · exact .ok _
  · exact .malformed htoken rfl

/-- What is declared is a name. -/
theorem checked_assignableName (h : blamed tree) :
    Checked blamed tree.assignableName tree.withoutSpans.assignableName := by
  unfold assignableName
  rw [rule?_withoutSpans]
  refine .guard h rfl fun hrule => checked_onlyChild heeded h (Decidable.not_not.mp hrule) rfl ?_
  intro inner hinner
  rw [rule?_withoutSpans]
  split
  · exact checked_identifierName heeded hinner
  · exact .unsupported h _

/-- Behind a dot stands a name or a keyword. -/
theorem checked_memberName (h : blamed tree) :
    Checked blamed tree.memberName tree.withoutSpans.memberName := by
  unfold memberName
  rw [rule?_withoutSpans]
  refine .guard h rfl fun hrule => checked_onlyChild heeded h (Decidable.not_not.mp hrule) rfl ?_
  intro inner hinner
  rw [rule?_withoutSpans]
  split
  · exact checked_identifierName heeded hinner
  · rw [isLeaf_withoutSpans, text_withoutSpans]
    split
    · exact .ok _
    · exact .malformed hinner rfl

/-- A place takes the first identifier behind the dot, or all of the text. -/
theorem checked_targetMemberName (h : blamed tree) (hrule : tree.rule? = some .identifierName) :
    Checked blamed tree.targetMemberName tree.withoutSpans.targetMemberName := by
  rcases tree with ⟨rule, children, span⟩ | ⟨category, text, span⟩
  · obtain rfl : rule = .identifierName := Option.some.inj hrule
    unfold targetMemberName
    rw [text_withoutSpans]
    cases children with
    | nil => exact .ok _
    | cons inner rest =>
      simp only [withoutSpans, allWithoutSpans, Tree.children, List.head?_cons, rule?_withoutSpans]
      split
      · exact checked_identifierName heeded (heeded.first h)
      · exact .ok _
  · cases hrule

/-- The checks on parameters go on where the last one has ended. -/
theorem checked_parameterNames (seen : List String) {parameters : List Tree}
    (h : ∀ parameter ∈ parameters, blamed parameter) :
    Checked blamed (parameterNames seen parameters)
      (parameterNames seen (allWithoutSpans parameters)) := by
  induction parameters generalizing seen with
  | nil => exact .ok seen
  | cons parameter rest ih =>
    obtain ⟨hparameter, hrest⟩ := List.forall_mem_cons.mp h
    rcases parameter with ⟨rule, children, span⟩ | ⟨category, text, span⟩
    · by_cases hrule : rule = .formalParameterArg
      · subst hrule
        rcases children with _ | ⟨assignable, _ | ⟨next, more⟩⟩
        · exact .unsupported hparameter _
        · refine .bind (checked_assignableName heeded (heeded.first hparameter)) fun name => ?_
          exact .guard hparameter rfl fun _ => ih _ hrest
        · exact .unsupported hparameter _
      · cases rule <;> first | exact absurd rfl hrule | exact .unsupported hparameter _
    · change Checked blamed (if text == "," then _ else _) (if text == "," then _ else _)
      split
      · exact ih seen hrest
      · exact .malformed hparameter rfl

/-- A numeral is read from its only leaf. -/
theorem checked_numericLiteral (h : blamed tree) (hrule : tree.rule? = some .numericLiteral) :
    Checked blamed tree.numericLiteral tree.withoutSpans.numericLiteral := by
  refine checked_onlyChild heeded h hrule rfl fun token htoken => ?_
  rw [category?_withoutSpans, text_withoutSpans]
  split
  · exact .ok _
  · exact .unimplementedLiteral htoken

/-- A literal is read from its only child. -/
theorem checked_literal (h : blamed tree) (hrule : tree.rule? = some .literal) :
    Checked blamed tree.literal tree.withoutSpans.literal := by
  refine checked_onlyChild heeded h hrule rfl fun inner hinner => ?_
  rw [rule?_withoutSpans, category?_withoutSpans, text_withoutSpans]
  split
  · exact checked_numericLiteral heeded hinner ‹_›
  · split
    · split
      · exact .ok _
      · exact .malformed hinner rfl
    · exact .ok _
    · split
      · exact .ok _
      · exact .ok _
      · exact .malformed hinner rfl
    · split
      · exact .ok _
      · exact .unimplementedLiteral hinner
    · exact .unsupported hinner _

end Tree

end TreeScript
