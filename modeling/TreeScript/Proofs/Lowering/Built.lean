import TreeScript.Proofs.Lowering.Emitted

/-!
# What lowering is built from

The lowering functions touch their state through a few basic steps only: looking at the mode,
appending an operation, taking a step in another mode and collecting what a step appends. All else
is results, errors and sequences. `Built` says that a step is put together in this way, along with
the same step for the tree without its spans, the trees that may be at fault and what is known of
the result and of the appended operations. It is proved once, one lowering function at a time.
Every fact that holds of the basic steps and is kept by sequences then holds of lowering by one
induction, which need not look at the functions again.

Two such facts are proved here: a step does to its state what it may (`Meets`), and of the modes
it heeds the innermost only.

The functions call one another on smaller trees. Each lemma assumes the result for visits to these,
and the whole follows by induction on the size.
-/

namespace TreeScript

namespace Lowering

open Operation

variable {α β : Type}
variable {wrong : Mode → Prop} {index : Nat} {error : CompileError}

/-- A step and its twin without spans, put together from the basic ones. -/
inductive Built (blamed : Tree → Prop) :
    {α : Type} → Mode → Lowering α → Lowering α → (α → List Operation → Prop) → Prop
  | pure {α : Type} {expected : Mode} {result : α} {post : α → List Operation → Prop} :
      post result [] → Built blamed expected (Pure.pure result) (Pure.pure result) post
  | throw {α : Type} {expected : Mode} {error : CompileError} {post : α → List Operation → Prop} :
      error.Faults blamed →
      Built blamed expected (MonadExcept.throw error) (MonadExcept.throw error.unplaced) post
  | bind {α β : Type} {expected : Mode} {step twin : Lowering α} {next nextTwin : α → Lowering β}
      {post : α → List Operation → Prop} {goal : β → List Operation → Prop} :
      Built blamed expected step twin post →
      (∀ result earlier, post result earlier →
        Built blamed expected (next result) (nextTwin result) fun final later =>
          goal final (earlier ++ later)) →
      Built blamed expected (step >>= next) (twin >>= nextTwin) goal
  | weaken {α : Type} {expected : Mode} {step twin : Lowering α}
      {post goal : α → List Operation → Prop} :
      Built blamed expected step twin post →
      (∀ result appended, post result appended → goal result appended) →
      Built blamed expected step twin goal
  | guardMode {α : Type} {expected : Mode} {wrong : Mode → Prop} [DecidablePred wrong]
      {error : CompileError} {next nextTwin : Lowering α} {post : α → List Operation → Prop} :
      ¬ wrong expected → error.PointsAt blamed → Built blamed expected next nextTwin post →
      Built blamed expected
        (do
          if wrong (← mode) then MonadExcept.throw error
          next)
        (do
          if wrong (← mode) then MonadExcept.throw error.unplaced
          nextTwin) post
  | emit {expected : Mode} {node : Tree} (operation : Operation) : blamed node →
      Built blamed expected (emit operation node) (emit operation node.withoutSpans)
        fun _ appended => appended = [operation]
  | inMode {α : Type} {expected other : Mode} {step twin : Lowering α}
      {post : α → List Operation → Prop} :
      Built blamed other step twin post →
      Built blamed expected (inMode other step) (inMode other twin) post
  | collect {expected : Mode} {step twin : Lowering Unit} {post : List Operation → Prop}
      (kind : SinkKind) (node : Tree) :
      Built blamed expected step twin (fun _ appended => post appended) →
      Built blamed expected (collect kind node step) (collect kind node.withoutSpans twin)
        (Yielding post)

namespace Built

variable {blamed : Tree → Prop} {expected : Mode} {tree node parent : Tree} {step twin : Lowering α}
  {post : α → List Operation → Prop} {goal : β → List Operation → Prop}

variable {cause : Malformed} {next nextTwin : Lowering β}

/-- A step does to its state what it may. -/
theorem meets (h : Built blamed expected step twin post) : Meets expected step post := by
  induction h with
  | pure h => exact .pure h
  | throw h => exact .throw h.1
  | bind _ _ ih ihnext => exact ih.bind ihnext
  | weaken _ himp ih => exact ih.mono himp
  | guardMode hexpected _ _ ih => exact .guardMode hexpected ih
  | emit operation _ => exact .emit operation _
  | inMode _ ih => exact ih.inMode
  | collect kind node _ ih => exact ih.collect

/-- What a step yields is as its postcondition says. -/
theorem exists_post (h : Built blamed expected step twin post) {state : LoweringState} {result : α}
    (hresult : (step state).1 = .ok result) : ∃ appended, post result appended := by
  have hrest := (h.meets state).2
  rw [hresult] at hrest
  obtain ⟨appended, hpost, -⟩ := hrest
  exact ⟨appended, hpost⟩

/-! ### Errors and checks -/

/-- A tree that is not supported is at fault. -/
theorem unsupported (h : blamed tree) (cause : Unsupported) :
    Built blamed expected (MonadExcept.throw (tree.unsupported cause))
      (MonadExcept.throw (tree.withoutSpans.unsupported cause)) post := by
  rw [Tree.unsupported_withoutSpans]
  exact .throw ⟨rfl, tree, h, rfl⟩

/-- An error may show the text of a tree, which does not depend on spans. -/
theorem unsupportedText {shown : Tree} (h : blamed tree) (cause : String → Unsupported) :
    Built blamed expected (MonadExcept.throw (tree.unsupported (cause shown.text)))
      (MonadExcept.throw (tree.withoutSpans.unsupported (cause shown.withoutSpans.text))) post := by
  rw [Tree.text_withoutSpans]
  exact unsupported h _

/-- A tree that breaks a rule is at fault. -/
theorem malformed (h : blamed tree) (hcause : cause.blamesState = false) :
    Built blamed expected (MonadExcept.throw (tree.malformed cause))
      (MonadExcept.throw (tree.withoutSpans.malformed cause)) post := by
  rw [Tree.malformed_withoutSpans]
  exact .throw ⟨hcause, tree, h, rfl⟩

/-- A node that is lowered in the wrong mode is at fault. -/
theorem guardMalformed [DecidablePred wrong] (hexpected : ¬ wrong expected) (htree : blamed tree)
    (h : Built blamed expected step twin post) :
    Built blamed expected
      (do
        if wrong (← mode) then MonadExcept.throw (tree.malformed cause)
        step)
      (do
        if wrong (← mode) then MonadExcept.throw (tree.withoutSpans.malformed cause)
        twin) post := by
  rw [Tree.malformed_withoutSpans]
  exact .guardMode hexpected ⟨tree, htree, rfl⟩ h

/-- After a step that appends nothing, all that counts is what follows it. -/
theorem bindYielding {next nextTwin : α → Lowering β} {known : α → Prop}
    (h : Built blamed expected step twin (Yielding known))
    (hnext : ∀ result, known result →
      Built blamed expected (next result) (nextTwin result) goal) :
    Built blamed expected (step >>= next) (twin >>= nextTwin) goal := by
  refine h.bind ?_
  rintro result _ ⟨hresult, rfl⟩
  exact hnext result hresult

/-- A check in front of a step. -/
theorem check {check spanless : Except CompileError α} {next nextTwin : α → Lowering β}
    (h : Checked blamed check spanless)
    (hnext : ∀ result, check = .ok result →
      Built blamed expected (next result) (nextTwin result) goal) :
    Built blamed expected (liftM check >>= next) (liftM spanless >>= nextTwin) goal := by
  obtain ⟨rfl, hfaults⟩ := h
  cases check with
  | error cause =>
    have hthrow : Built blamed expected (MonadExcept.throw cause : Lowering α)
        (MonadExcept.throw cause.unplaced) (Yielding fun _ => False) := .throw (hfaults cause rfl)
    exact hthrow.bindYielding fun _ hfalse => hfalse.elim
  | ok result =>
    have hpure : Built blamed expected (Pure.pure result) (Pure.pure result)
        (Yielding fun found => found = result) := .pure ⟨rfl, rfl⟩
    exact hpure.bindYielding fun found hfound => hfound ▸ hnext result rfl

/-- A wrong text is the fault of the tree that has it. -/
theorem requireText {text : String} (htree : blamed tree)
    (h : Built blamed expected next nextTwin goal) :
    Built blamed expected (do tree.requireText text; next)
      (do tree.withoutSpans.requireText text; nextTwin) goal :=
  check (Tree.checked_requireText htree text) fun _ _ => h

/-- A wrong rule is the fault of the tree that has it. -/
theorem requireRule {rule : Rule} (htree : blamed tree)
    (h : tree.rule? = some rule → Built blamed expected next nextTwin goal) :
    Built blamed expected (do tree.requireRule rule index parent; next)
      (do tree.withoutSpans.requireRule rule index parent.withoutSpans; nextTwin) goal := by
  refine check (Tree.checked_requireRule htree rule index parent) fun _ hok => h ?_
  unfold Tree.requireRule at hok
  split at hok
  · assumption
  · cases hok

/-- A check that passes does not count. -/
theorem requireRule_of {rule : Rule} (hrule : tree.rule? = some rule)
    (h : Built blamed expected next nextTwin goal) :
    Built blamed expected (do tree.requireRule rule index parent; next)
      (do tree.withoutSpans.requireRule rule index parent.withoutSpans; nextTwin) goal := by
  rw [Tree.requireRule, Tree.requireRule, Tree.rule?_withoutSpans, if_pos hrule, if_pos hrule]
  exact check (.ok ()) fun _ _ => h

/-- An end mark that is left out is never found fault with. -/
theorem requireEnd (htree : blamed tree ∨ tree.rule? = some .eos)
    (h : Built blamed expected next nextTwin goal) :
    Built blamed expected (do tree.requireRule .eos index parent; next)
      (do tree.withoutSpans.requireRule .eos index parent.withoutSpans; nextTwin) goal := by
  rcases htree with hblamed | hbare
  · exact requireRule hblamed fun _ => h
  · exact requireRule_of hbare h

/-- A test in front of a step. -/
theorem guard {wrong : Prop} [Decidable wrong] (herror : error.Faults blamed)
    (h : Built blamed expected next nextTwin goal) :
    Built blamed expected
      (do
        if wrong then MonadExcept.throw error
        next)
      (do
        if wrong then MonadExcept.throw error.unplaced
        nextTwin) goal := by
  by_cases hwrong : wrong
  · simp only [if_pos hwrong]
    have hthrow : Built blamed expected (MonadExcept.throw error : Lowering PUnit)
        (MonadExcept.throw error.unplaced) (Yielding fun _ => False) := .throw herror
    exact hthrow.bindYielding fun _ hfalse => hfalse.elim
  · simp only [if_neg hwrong]
    exact h

/-! ### Nodes -/

/-- A node that is lowered for its value. -/
theorem some {step twin : Lowering Operation}
    (h : Built blamed .value step twin (Yielding IsValue)) :
    Built blamed .value (Option.some <$> step) (Option.some <$> twin) Emitted :=
  h.bindYielding fun _ hvalue => .pure ⟨hvalue, rfl⟩

/-- A node that is lowered for what it appends. -/
theorem none {step twin : Lowering Unit} (h : Built blamed .value step twin Writing) :
    Built blamed .value (do step; return Option.none) (do twin; return Option.none) Emitted := by
  refine h.bind fun _ earlier hearlier => .pure ?_
  rwa [List.append_nil]

/-- A statement is appended for the node it stands for. -/
theorem writeOne {operation : Operation} (h : blamed node) (hoperation : operation.IsStatement) :
    Built blamed expected (Lowering.emit operation node)
      (Lowering.emit operation node.withoutSpans) WritingOne := by
  refine (Built.emit operation h).weaken ?_
  rintro _ _ rfl
  exact ⟨operation, hoperation, rfl⟩

/-- One statement is made of statements. -/
theorem writing {step twin : Lowering Unit} (h : Built blamed expected step twin WritingOne) :
    Built blamed expected step twin Writing := by
  refine h.weaken ?_
  rintro _ _ ⟨operation, hoperation, rfl⟩
  exact areStatements_singleton hoperation

/-- A node that is visited for what it appends. -/
theorem discard {step twin : Lowering (Option Operation)}
    (h : Built blamed expected step twin Emitted) :
    Built blamed expected (do let _ ← step) (do let _ ← twin) Writing := by
  refine h.bind fun _ earlier hearlier => .pure ?_
  rw [Writing, List.append_nil]
  exact areStatements_of_emitted hearlier

end Built

/-! ## The lowering functions -/

open TreeScript.Tree (allWithoutSpans)

/-- A lowering function, on a tree with and without spans. -/
abbrev BuiltAt (blamed : Tree → Prop) (expected : Mode) (lower : Tree → Lowering α) (tree : Tree)
    (post : α → List Operation → Prop) : Prop :=
  Built blamed expected (lower tree) (lower tree.withoutSpans) post

/-- A lowering function, on a node and its children with and without spans. -/
abbrev BuiltOver (blamed : Tree → Prop) (lower : Tree → List Tree → Lowering α) (node : Tree)
    (children : List Tree) (post : α → List Operation → Prop) : Prop :=
  Built blamed .value (lower node children) (lower node.withoutSpans (allWithoutSpans children))
    post

/-- A tree that may be at fault, of bounded size. -/
structure Below (blamed : Tree → Prop) (bound : Nat) (tree : Tree) : Prop where
  blamed : blamed tree
  small : sizeOf tree < bound

namespace Below

variable {blamed : Tree → Prop} {bound : Nat} {tree part left inner right : Tree} {rule bare : Rule}
  {parts : List Tree} {span : Span}

/-- A bound may be raised. -/
theorem mono (h : Below blamed bound tree) : Below blamed (bound + 1) tree :=
  ⟨h.blamed, Nat.lt_succ_of_lt h.small⟩

/-- A part is smaller than the node. -/
theorem child (h : Below blamed (bound + 1) (.node rule parts span)) (hmem : part ∈ parts)
    (hpart : blamed part) : Below blamed bound part := by
  refine ⟨hpart, ?_⟩
  have hsmall := h.small
  have hsize := List.sizeOf_lt_of_mem hmem
  rw [Tree.node.sizeOf_spec] at hsmall
  omega

/-- All parts of a plain node are smaller. -/
theorem plain (heeded : Heeded blamed) (h : Below blamed (bound + 1) (.node rule parts span))
    (hrule : rule.isPlain = true) : ∀ part ∈ parts, Below blamed bound part :=
  fun part hmem => h.child hmem (heeded.plain h.blamed hrule part hmem)

/-- The first part of a node is smaller. -/
theorem first (heeded : Heeded blamed)
    (h : Below blamed (bound + 1) (.node rule (part :: parts) span)) : Below blamed bound part :=
  h.child List.mem_cons_self (heeded.first h.blamed)

/-- The parts before an end mark are smaller. -/
theorem ended (heeded : Heeded blamed) (parts : List Tree) (ending : Tree)
    (h : Below blamed (bound + 1) (.node rule (parts ++ [ending]) span))
    (hrule : rule.isEnded = true) :
    (∀ part ∈ parts, Below blamed bound part) ∧ (blamed ending ∨ ending.rule? = some .eos) := by
  obtain ⟨hparts, hending⟩ := heeded.ended parts ending h.blamed hrule
  exact ⟨fun part hmem => h.child (List.mem_append_left _ hmem) (hparts part hmem), hending⟩

/-- What stands between two marks is smaller, or empty. -/
theorem enclosed (heeded : Heeded blamed)
    (h : Below blamed (bound + 1) (.node rule [left, inner, right] span))
    (hrule : rule.enclosed? = some bare) :
    blamed left ∧ blamed right ∧
      (Below blamed bound inner ∨ ∃ innerSpan, inner = .node bare [] innerSpan) := by
  obtain ⟨hleft, hright, hinner⟩ := heeded.enclosed h.blamed hrule
  have hmem : inner ∈ [left, inner, right] := List.mem_cons_of_mem _ List.mem_cons_self
  exact ⟨hleft, hright, hinner.imp_left (h.child hmem)⟩

end Below

section

/-- An empty list of statements or elements is never found fault with. -/
theorem visit_bare {blamed : Tree → Prop} {rule : Rule} (span : Span)
    (hrule : rule = .sourceElements ∨ rule = .statementList) :
    Built blamed .value (visit (.node rule [] span))
      (visit (Tree.node rule [] span).withoutSpans) Emitted := by
  have hnil : Built blamed .value (visitAll []) (visitAll []) Writing := by
    rw [visitAll]
    exact .pure (List.forall_mem_nil _)
  rcases hrule with rfl | rfl <;> rw [Tree.withoutSpans, visit, visit] <;> exact hnil.none

variable {blamed : Tree → Prop} {bound : Nat} {tree node : Tree} {children : List Tree}
  {span : Span}
  (visits : ∀ tree, Below blamed bound tree → BuiltAt blamed .value visit tree Emitted)
include visits

/-- A value is a visit that yields one. -/
theorem value_built (h : Below blamed bound tree) :
    BuiltAt blamed .value value tree (Yielding IsValue) := by
  rw [BuiltAt, value, value]
  refine (visits tree h).bind fun result appended hresult => ?_
  cases result with
  | none => exact .malformed h.blamed rfl
  | some operation =>
    obtain ⟨hvalue, rfl⟩ := hresult
    exact .pure ⟨hvalue, rfl⟩

/-- Trees in a list append their statements in turn. -/
theorem visitAll_built {trees : List Tree} (h : ∀ tree ∈ trees, Below blamed bound tree) :
    Built blamed .value (visitAll trees) (visitAll (allWithoutSpans trees)) Writing := by
  induction trees with
  | nil =>
    rw [allWithoutSpans, visitAll]
    exact .pure (List.forall_mem_nil _)
  | cons tree rest ih =>
    rw [allWithoutSpans, visitAll, visitAll]
    obtain ⟨htree, hrest⟩ := List.forall_mem_cons.mp h
    refine (visits tree htree).bind fun _ earlier hearlier => ?_
    refine (ih hrest).weaken fun _ later hlater => ?_
    exact areStatements_append (areStatements_of_emitted hearlier) hlater

/-- A wrapper appends what its only child does. -/
theorem visitInner_built (h : blamed node)
    (hchildren : ∀ child ∈ children, Below blamed bound child) :
    BuiltOver blamed visitInner node children Writing := by
  rw [BuiltOver, visitInner.eq_def, visitInner.eq_def node.withoutSpans]
  rcases children with _ | ⟨inner, _ | ⟨next, rest⟩⟩
  any_goals exact .unsupported h _
  exact (visits inner (hchildren inner List.mem_cons_self)).discard

/-- A wrapper has the value of its only child. -/
theorem innerValue_built (h : blamed node)
    (hchildren : ∀ child ∈ children, Below blamed bound child) :
    BuiltOver blamed innerValue node children (Yielding IsValue) := by
  rw [BuiltOver, innerValue.eq_def, innerValue.eq_def node.withoutSpans]
  rcases children with _ | ⟨inner, _ | ⟨next, rest⟩⟩
  any_goals exact .unsupported h _
  exact value_built visits (hchildren inner List.mem_cons_self)

/-- A sequence has the value of its only expression. -/
theorem lowerSequence_built (h : blamed node)
    (hchildren : ∀ child ∈ children, Below blamed bound child) :
    BuiltOver blamed lowerSequence node children (Yielding IsValue) := by
  rw [BuiltOver, lowerSequence.eq_def, lowerSequence.eq_def node.withoutSpans]
  rcases children with _ | ⟨only, _ | ⟨next, rest⟩⟩
  any_goals exact .unsupported h _
  exact value_built visits (hchildren only List.mem_cons_self)

/-- A condition stands in parentheses behind its keyword. -/
theorem conditionValue_built (node : Tree) {keyword left condition right : Tree}
    (hkeyword : blamed keyword) (hleft : blamed left) (hcondition : Below blamed bound condition)
    (hright : blamed right) :
    Built blamed .value (conditionValue node keyword left condition right)
      (conditionValue node.withoutSpans keyword.withoutSpans left.withoutSpans
        condition.withoutSpans right.withoutSpans) (Yielding IsValue) := by
  rw [conditionValue, conditionValue]
  refine .requireText hkeyword (.requireText hleft (.requireText hright ?_))
  exact .requireRule hcondition.blamed fun _ => value_built visits hcondition

/-- A variable without a value in its declaration is null. -/
theorem initialValue_built (h : blamed node)
    (hchildren : ∀ child ∈ children, Below blamed bound child) :
    BuiltOver blamed initialValue node children (Yielding IsValue) := by
  rw [BuiltOver, initialValue.eq_def, initialValue.eq_def node.withoutSpans]
  rcases children with _ | ⟨sign, _ | ⟨initial, _ | ⟨next, rest⟩⟩⟩
  any_goals exact .unsupported h _
  · exact .pure ⟨.literal .null, rfl⟩
  · obtain ⟨hsign, hrest⟩ := List.forall_mem_cons.mp hchildren
    exact .requireText hsign.blamed (value_built visits (hrest initial List.mem_cons_self))

/-- The items of a list or of a call stand between commas. -/
theorem lowerItems_built {fault : Malformed} (hfault : fault.blamesState = false)
    {items : List Tree} (h : ∀ item ∈ items, Below blamed bound item) :
    Built blamed .value (lowerItems fault items) (lowerItems fault (allWithoutSpans items))
      (Yielding fun operations => ∀ operation ∈ operations, IsValue operation) := by
  induction items with
  | nil =>
    rw [allWithoutSpans, lowerItems]
    exact .pure ⟨List.forall_mem_nil _, rfl⟩
  | cons item rest ih =>
    obtain ⟨hitem, hrest⟩ := List.forall_mem_cons.mp h
    rw [allWithoutSpans, lowerItems, lowerItems, Tree.isLeaf_withoutSpans, Tree.text_withoutSpans,
      Tree.malformed_withoutSpans]
    split
    · exact .guard ⟨hfault, item, hitem.blamed, rfl⟩ (ih hrest)
    · refine (value_built visits hitem).bindYielding fun first hfirst => ?_
      refine (ih hrest).bindYielding fun others hothers => ?_
      exact .pure ⟨List.forall_mem_cons.mpr ⟨hfirst, hothers⟩, rfl⟩

/-- Arguments stand between parentheses. -/
theorem lowerArguments_built (h : blamed node)
    (hchildren : ∀ child ∈ children, Below blamed bound child) :
    BuiltOver blamed lowerArguments node children
      (Yielding fun arguments => ∀ argument ∈ arguments, IsValue argument) := by
  rw [BuiltOver, lowerArguments.eq_def, lowerArguments.eq_def node.withoutSpans]
  cases children with
  | nil => exact .malformed h rfl
  | cons left rest =>
    obtain ⟨hleft, hrest⟩ := List.forall_mem_cons.mp hchildren
    have hlast : (allWithoutSpans rest).getLast? = rest.getLast?.map Tree.withoutSpans := by
      rw [Tree.allWithoutSpans_eq_map, List.getLast?_map]
    have hinit : (allWithoutSpans rest).dropLast = allWithoutSpans rest.dropLast := by
      rw [Tree.allWithoutSpans_eq_map, Tree.allWithoutSpans_eq_map, List.map_dropLast]
    simp only [allWithoutSpans, hlast, hinit]
    cases hright : rest.getLast? with
    | none => exact .malformed h rfl
    | some right =>
      have hmarked := (hrest right (List.mem_of_getLast? hright)).blamed
      refine .requireText hleft.blamed (.requireText hmarked ?_)
      refine lowerItems_built visits rfl fun item hitem => ?_
      exact hrest item ((List.dropLast_sublist rest).subset hitem)

/-- The list between the marks of a function's body or of a block. -/
theorem listBody_built {rule : Rule} {kind : SinkKind} {inner : Tree}
    (hrule : rule = .sourceElements ∨ rule = .statementList)
    (hinner : Below blamed bound inner ∨ ∃ innerSpan, inner = .node rule [] innerSpan) :
    Built blamed .value
      (do
        inner.requireRule rule index node
        collect kind node do let _ ← visit inner)
      (do
        inner.withoutSpans.requireRule rule index node.withoutSpans
        collect kind node.withoutSpans do let _ ← visit inner.withoutSpans)
      (Yielding AreStatements) := by
  rcases hinner with hinner | ⟨innerSpan, rfl⟩
  · exact .requireRule hinner.blamed fun _ => .collect kind node (visits inner hinner).discard
  · exact .requireRule_of rfl (.collect kind node (visit_bare innerSpan hrule).discard)

variable (heeded : Heeded blamed)
include heeded

/-! ### Statements -/

/-- A declaration has one modifier and one name. -/
theorem lowerVariable_built
    (h : Below blamed (bound + 1) (.node .variableStatement children span)) :
    BuiltOver blamed lowerVariable (.node .variableStatement children span) children
      WritingOne := by
  rw [BuiltOver, lowerVariable.eq_def, lowerVariable.eq_def (Tree.withoutSpans _)]
  rcases children with _ | ⟨list, _ | ⟨ending, _ | ⟨next, rest⟩⟩⟩
  any_goals exact .unsupported h.blamed _
  obtain ⟨hparts, hending⟩ := h.ended heeded [list] ending rfl
  have hlist := hparts list List.mem_cons_self
  refine .requireRule hlist.blamed fun hrule => .requireEnd hending ?_
  rcases list with ⟨rule, _ | ⟨modifier, declarators⟩, span⟩ | ⟨category, text, span⟩
  · exact .malformed hlist.blamed rfl
  · cases hrule
    obtain ⟨hmodifier, hdeclarators⟩ := List.forall_mem_cons.mp (hlist.mono.plain heeded rfl)
    refine .requireRule hmodifier.blamed fun _ => ?_
    dsimp only [Tree.withoutSpans, allWithoutSpans]
    rw [Tree.text_withoutSpans, Tree.unsupported_withoutSpans]
    refine .guard ⟨rfl, modifier, hmodifier.blamed, rfl⟩ ?_
    rcases declarators with _ | ⟨declaration, _ | ⟨next, rest⟩⟩
    · exact .unsupported hlist.blamed _
    · have hdeclaration := hdeclarators declaration List.mem_cons_self
      refine .requireRule hdeclaration.blamed fun hrule => ?_
      rcases declaration with ⟨_, _ | ⟨assignable, parts⟩, _⟩ | ⟨_, _, _⟩
      · exact .malformed hdeclaration.blamed rfl
      · cases hrule
        obtain ⟨hassignable, hparts⟩ :=
          List.forall_mem_cons.mp (hdeclaration.mono.plain heeded rfl)
        refine .check (Tree.checked_assignableName heeded hassignable.blamed) fun name _ => ?_
        have hinitial := initialValue_built visits hdeclaration.blamed hparts
        refine hinitial.bindYielding fun initial hinitial => ?_
        exact .writeOne h.blamed (.declareVariable name hinitial)
      · cases hrule
    · exact .unsupported hlist.blamed _
  · cases hrule

/-- An expression with its ending is a statement. -/
theorem lowerExpressionStatement_built
    (h : Below blamed (bound + 1) (.node .expressionStatement children span)) :
    BuiltOver blamed lowerExpressionStatement (.node .expressionStatement children span) children
      WritingOne := by
  rw [BuiltOver, lowerExpressionStatement.eq_def,
    lowerExpressionStatement.eq_def (Tree.withoutSpans _)]
  rcases children with _ | ⟨sequence, _ | ⟨ending, _ | ⟨next, rest⟩⟩⟩
  any_goals exact .unsupported h.blamed _
  have hsequence := h.first heeded
  refine .requireRule hsequence.blamed fun _ => ?_
  refine (value_built visits hsequence).bindYielding fun operation hoperation => ?_
  exact .writeOne h.blamed (.value hoperation)

/-- A return gives back its value, or null. -/
theorem lowerReturn_built (h : Below blamed (bound + 1) (.node .returnStatement children span)) :
    BuiltOver blamed lowerReturn (.node .returnStatement children span) children WritingOne := by
  rw [BuiltOver, lowerReturn.eq_def, lowerReturn.eq_def (Tree.withoutSpans _)]
  rcases children with _ | ⟨keyword, parts⟩
  · exact .malformed h.blamed rfl
  · refine .requireText (heeded.first h.blamed) ?_
    rcases parts with _ | ⟨sequence, _ | ⟨ending, _ | ⟨next, rest⟩⟩⟩
    any_goals exact .unsupported h.blamed _
    · exact .writeOne h.blamed (.giveBack (.literal .null))
    · obtain ⟨hparts, -⟩ := h.ended heeded [keyword, sequence] ending rfl
      have hsequence := hparts sequence (List.mem_cons_of_mem _ List.mem_cons_self)
      refine .requireRule hsequence.blamed fun _ => ?_
      refine (value_built visits hsequence).bindYielding fun operation hoperation => ?_
      exact .writeOne h.blamed (.giveBack hoperation)

/-- The body of a function is a list between braces. -/
theorem functionBody_built (h : Below blamed bound tree) (hrule : tree.rule? = some .functionBody) :
    BuiltAt blamed .value functionBody tree (Yielding AreStatements) := by
  rw [BuiltAt, functionBody.eq_def, functionBody.eq_def tree.withoutSpans]
  rcases tree with ⟨rule, _ | ⟨opening, _ | ⟨elements, _ | ⟨closing, _ | ⟨next, rest⟩⟩⟩⟩, span⟩ |
    ⟨category, text, span⟩
  any_goals exact .unsupported h.blamed _
  cases hrule
  obtain ⟨hopening, hclosing, helements⟩ := h.mono.enclosed heeded rfl
  refine .requireText hopening (.requireText hclosing ?_)
  exact listBody_built visits (.inl rfl) helements

/-- A function is declared with or without parameters. -/
theorem lowerFunction_built (h : blamed node)
    (hchildren : ∀ child ∈ children, Below blamed bound child) :
    BuiltOver blamed lowerFunction node children WritingOne := by
  rw [BuiltOver, lowerFunction.eq_def, lowerFunction.eq_def node.withoutSpans]
  rcases children with _ | ⟨keyword, _ | ⟨identifier, _ | ⟨left, _ | ⟨fourth, _ | ⟨fifth,
    _ | ⟨sixth, _ | ⟨next, rest⟩⟩⟩⟩⟩⟩⟩
  any_goals exact .unsupported h _
  · simp only [List.forall_mem_cons] at hchildren
    obtain ⟨hkeyword, hidentifier, hleft, hright, hbody, -⟩ := hchildren
    refine .requireText hkeyword.blamed ?_
    refine .check (Tree.checked_identifierName heeded hidentifier.blamed) fun name _ => ?_
    refine .requireText hleft.blamed (.requireText hright.blamed ?_)
    refine .requireRule hbody.blamed fun hrule => ?_
    have hlowered := functionBody_built visits heeded hbody hrule
    refine hlowered.bindYielding fun operations hoperations => ?_
    exact .writeOne h (.declareFunction name List.nodup_nil hoperations)
  · simp only [List.forall_mem_cons] at hchildren
    obtain ⟨hkeyword, hidentifier, hleft, hparameters, hright, hbody, -⟩ := hchildren
    refine .requireText hkeyword.blamed ?_
    refine .check (Tree.checked_identifierName heeded hidentifier.blamed) fun name _ => ?_
    refine .requireText hleft.blamed (.requireText hright.blamed ?_)
    refine .requireRule hparameters.blamed fun hlist => ?_
    rw [Tree.children_withoutSpans]
    have hlisted := heeded.children hparameters.blamed hlist rfl
    refine .check (Tree.checked_parameterNames heeded [] hlisted) fun names hnames => ?_
    refine .requireRule hbody.blamed fun hrule => ?_
    have hlowered := functionBody_built visits heeded hbody hrule
    refine hlowered.bindYielding fun operations hoperations => ?_
    have hnodup := Tree.parameterNames_nodup hnames List.nodup_nil
    exact .writeOne h (.declareFunction name hnodup hoperations)

/-- A block is a list between braces. -/
theorem blockBody_built (h : Below blamed (bound + 1) (.node .block children span)) :
    BuiltOver blamed blockBody (.node .block children span) children (Yielding AreStatements) := by
  rw [BuiltOver, blockBody.eq_def, blockBody.eq_def (Tree.withoutSpans _)]
  rcases children with _ | ⟨opening, _ | ⟨statements, _ | ⟨closing, _ | ⟨next, rest⟩⟩⟩⟩
  any_goals exact .unsupported h.blamed _
  obtain ⟨hopening, hclosing, hstatements⟩ := h.enclosed heeded rfl
  refine .requireText hopening (.requireText hclosing ?_)
  exact listBody_built visits (.inr rfl) hstatements

/-- A branch that is a block gives the operations of the block. -/
theorem branch_built (h : Below blamed bound tree) (hrule : tree.rule? = some .statement) :
    BuiltAt blamed .value branch tree (Yielding AreStatements) := by
  rw [BuiltAt, branch.eq_def, branch.eq_def tree.withoutSpans]
  rcases tree with ⟨rule, _ | ⟨inner, _ | ⟨next, rest⟩⟩, span⟩ | ⟨category, text, span⟩
  any_goals exact .unsupported h.blamed _
  cases hrule
  have hinner := h.mono.plain heeded rfl inner List.mem_cons_self
  simp only [Tree.withoutSpans, allWithoutSpans, Tree.rule?_withoutSpans]
  split
  · rename_i hblock
    rcases inner with ⟨innerRule, children, innerSpan⟩ | ⟨_, _, _⟩
    · cases hblock
      exact blockBody_built visits heeded hinner.mono
    · cases hblock
  · exact .collect _ _ (visits _ h).discard

/-- A conditional has one branch or two. -/
theorem lowerConditional_built (h : blamed node)
    (hchildren : ∀ child ∈ children, Below blamed bound child) :
    BuiltOver blamed lowerConditional node children WritingOne := by
  rw [BuiltOver, lowerConditional.eq_def, lowerConditional.eq_def node.withoutSpans]
  rcases children with _ | ⟨keyword, _ | ⟨left, _ | ⟨condition, _ | ⟨right, _ | ⟨consequence,
    _ | ⟨otherwise, _ | ⟨alternative, _ | ⟨next, rest⟩⟩⟩⟩⟩⟩⟩⟩
  any_goals exact .unsupported h _
  · simp only [List.forall_mem_cons] at hchildren
    obtain ⟨hkeyword, hleft, hcondition, hright, hthen, -⟩ := hchildren
    have htest := conditionValue_built visits node hkeyword.blamed hleft.blamed hcondition
      hright.blamed
    refine htest.bindYielding fun test htest => .requireRule hthen.blamed fun hrule => ?_
    refine (branch_built visits heeded hthen hrule).bindYielding fun thenBody hthen => ?_
    exact .writeOne h (.ifThen htest hthen)
  · simp only [List.forall_mem_cons] at hchildren
    obtain ⟨hkeyword, hleft, hcondition, hright, hthen, hotherwise, helse, -⟩ := hchildren
    have htest := conditionValue_built visits node hkeyword.blamed hleft.blamed hcondition
      hright.blamed
    refine htest.bindYielding fun test htest => .requireRule hthen.blamed fun hrule => ?_
    refine (branch_built visits heeded hthen hrule).bindYielding fun thenBody hthen => ?_
    refine .requireText hotherwise.blamed (.requireRule helse.blamed fun hrule => ?_)
    refine (branch_built visits heeded helse hrule).bindYielding fun elseBody helse => ?_
    exact .writeOne h (.ifThenElse htest hthen helse)

/-! ### Expressions -/

/-- The elements of a list stand between brackets. -/
theorem lowerArray_built (h : Below blamed (bound + 1) (.node .arrayLiteral children span)) :
    BuiltOver blamed lowerArray (.node .arrayLiteral children span) children
      (Yielding IsValue) := by
  rw [BuiltOver, lowerArray.eq_def, lowerArray.eq_def (Tree.withoutSpans _)]
  rcases children with _ | ⟨left, _ | ⟨list, _ | ⟨right, _ | ⟨next, rest⟩⟩⟩⟩
  any_goals exact .unsupported h.blamed _
  obtain ⟨hleft, hright, hlist⟩ := h.enclosed heeded rfl
  refine .requireText hleft (.requireText hright ?_)
  rcases hlist with hlist | ⟨innerSpan, rfl⟩
  · refine .requireRule hlist.blamed fun hrule => ?_
    rcases list with ⟨_, elements, _⟩ | ⟨_, _, _⟩
    · cases hrule
      refine (lowerItems_built visits rfl (hlist.mono.plain heeded rfl)).bindYielding ?_
      exact fun items hitems => .pure ⟨.createList hitems, rfl⟩
    · cases hrule
  · refine .requireRule_of rfl ?_
    refine (lowerItems_built visits rfl (List.forall_mem_nil _)).bindYielding ?_
    exact fun items hitems => .pure ⟨.createList hitems, rfl⟩

/-- A target is a name, a member or an element. -/
theorem targetShape_built (h : Below blamed bound tree) :
    BuiltAt blamed .target targetShape tree (Yielding Target.IsPlace) := by
  rw [BuiltAt, targetShape.eq_def, targetShape.eq_def tree.withoutSpans]
  refine .guardMalformed (by decide) h.blamed ?_
  rcases tree with ⟨rule, children, span⟩ | ⟨category, text, span⟩
  · cases rule with
    | singleExpression =>
      have hchildren := h.mono.plain heeded rfl
      rcases children with _ | ⟨first, _ | ⟨second, _ | ⟨third, _ | ⟨fourth, _ | ⟨fifth, rest⟩⟩⟩⟩⟩
      any_goals exact .unsupportedText h.blamed _
      · simp only [Tree.withoutSpans, allWithoutSpans, Tree.rule?_withoutSpans]
        split
        · have hfirst := heeded.first h.blamed
          refine .check (Tree.checked_identifierName heeded hfirst) fun name _ => ?_
          exact .pure ⟨List.forall_mem_nil _, rfl⟩
        · exact .unsupportedText h.blamed _
      · simp only [List.forall_mem_cons] at hchildren
        obtain ⟨hobject, -, hname, -⟩ := hchildren
        simp only [Tree.withoutSpans, allWithoutSpans, Tree.isText_withoutSpans]
        split
        · refine (value_built visits hobject).inMode.bindYielding fun object hobject => ?_
          refine .requireRule hname.blamed fun hrule => ?_
          refine .check (Tree.checked_targetMemberName heeded hname.blamed hrule) fun name _ => ?_
          exact .pure ⟨List.forall_mem_singleton.mpr hobject, rfl⟩
        · exact .unsupportedText h.blamed _
      · simp only [List.forall_mem_cons] at hchildren
        obtain ⟨hobject, -, hindex, -, -⟩ := hchildren
        simp only [Tree.withoutSpans, allWithoutSpans, Tree.isText_withoutSpans]
        split
        · refine (value_built visits hobject).inMode.bindYielding fun object hobject => ?_
          refine .requireRule hindex.blamed fun _ => ?_
          refine (value_built visits hindex).inMode.bindYielding fun index hindex => ?_
          refine .pure ⟨List.forall_mem_cons.mpr ⟨hobject, ?_⟩, rfl⟩
          exact List.forall_mem_singleton.mpr hindex
        · exact .unsupportedText h.blamed _
    | _ => exact .unsupported h.blamed _
  · exact .unsupported h.blamed _

/-- A target is lowered in a mode of its own. -/
theorem target_built (h : Below blamed bound tree) :
    BuiltAt blamed .value target tree (Yielding Target.IsPlace) := by
  rw [BuiltAt, target, target]
  exact .inMode (targetShape_built visits heeded h)

/-- An expression of one part has the value of the part. -/
theorem primary_built (h : Below blamed bound tree) :
    BuiltAt blamed .value primary tree (Yielding IsValue) := by
  rw [BuiltAt, primary.eq_def, primary.eq_def tree.withoutSpans, Tree.rule?_withoutSpans]
  split
  · exact value_built visits h
  · rcases tree with ⟨rule, children, span⟩ | ⟨category, text, span⟩
    · cases rule with
      | expressionStatement =>
        cases children with
        | nil => exact .malformed h.blamed rfl
        | cons sequence rest =>
          have hsequence := h.mono.first heeded
          exact .requireRule hsequence.blamed fun _ => value_built visits hsequence
      | _ => exact .unsupportedText h.blamed _
    · exact .unsupportedText h.blamed _

/-- An operator before or after its operand, or a call. -/
theorem lowerPair_built {first second : Tree} (h : blamed node) (hfirst : Below blamed bound first)
    (hsecond : Below blamed bound second) :
    Built blamed .value (lowerPair node first second)
      (lowerPair node.withoutSpans first.withoutSpans second.withoutSpans) (Yielding IsValue) := by
  rw [lowerPair.eq_def, lowerPair.eq_def node.withoutSpans, Tree.isLeaf_withoutSpans]
  simp only [Tree.text_withoutSpans]
  split
  · split
    · rename_i operator hoperator
      refine (target_built visits heeded hsecond).bindYielding fun place hplace => .pure ⟨?_, rfl⟩
      exact .combine (mem_compoundable_of_stepOperator? hoperator) hplace (.literal _)
    · split
      · refine (value_built visits hsecond).bindYielding fun operand hoperand => ?_
        exact .pure ⟨.unary _ hoperand, rfl⟩
      · exact .unsupported h _
  · rcases second with ⟨rule, children, span⟩ | ⟨category, text, span⟩
    · cases rule with
      | arguments =>
        refine (value_built visits hfirst).bindYielding fun callee hcallee => ?_
        have harguments := lowerArguments_built visits hsecond.blamed
          (hsecond.mono.plain heeded rfl)
        refine harguments.bindYielding fun arguments harguments => ?_
        exact .pure ⟨.call hcallee harguments, rfl⟩
      | _ => exact .unsupported h _
    · dsimp only [Tree.withoutSpans]
      split
      · rename_i operator hoperator
        refine (target_built visits heeded hfirst).bindYielding fun place hplace => ?_
        exact .pure ⟨.stepAfter hoperator hplace, rfl⟩
      · exact .unsupported h _

/-- A member, an assignment or an operator between its operands. -/
theorem lowerTriple_built {left middle right : Tree} (h : blamed node)
    (hleft : Below blamed bound left) (hmiddle : Below blamed bound middle)
    (hright : Below blamed bound right) :
    Built blamed .value (lowerTriple node left middle right)
      (lowerTriple node.withoutSpans left.withoutSpans middle.withoutSpans right.withoutSpans)
      (Yielding IsValue) := by
  rw [lowerTriple.eq_def, lowerTriple.eq_def node.withoutSpans]
  simp only [Tree.isText_withoutSpans, Tree.rule?_withoutSpans, Tree.text_withoutSpans,
    Tree.isLeaf_withoutSpans]
  split
  · exact .requireRule hmiddle.blamed fun _ => value_built visits hmiddle
  split
  · split
    · exact .unsupported hmiddle.blamed _
    · rename_i operator hoperator
      refine (target_built visits heeded hleft).bindYielding fun place hplace => ?_
      refine (value_built visits hright).bindYielding fun operand hoperand => .pure ⟨?_, rfl⟩
      exact .combine (BinaryOperator.mem_compoundable_of_ofCompound? hoperator) hplace hoperand
  split
  · exact .unsupported h _
  split
  · refine (value_built visits hleft).bindYielding fun object hobject => ?_
    refine .check (Tree.checked_memberName heeded hright.blamed) fun member _ => ?_
    exact .pure ⟨.getMember member hobject, rfl⟩
  split
  · refine (target_built visits heeded hleft).bindYielding fun place hplace => ?_
    refine (value_built visits hright).bindYielding fun operand hoperand => ?_
    exact .pure ⟨.assign hplace hoperand, rfl⟩
  split
  · exact .unsupported h _
  · refine (value_built visits hleft).bindYielding fun leftValue hleft => ?_
    refine (value_built visits hright).bindYielding fun rightValue hright => ?_
    exact .pure ⟨.binary _ hleft hright, rfl⟩

/-- The number of its parts tells what an expression is. -/
theorem lowerExpression_built (h : blamed node)
    (hchildren : ∀ child ∈ children, Below blamed bound child) :
    BuiltOver blamed lowerExpression node children (Yielding IsValue) := by
  rw [BuiltOver, lowerExpression.eq_def, lowerExpression.eq_def node.withoutSpans]
  refine .guardMalformed (by decide) h ?_
  rcases children with _ | ⟨first, _ | ⟨second, _ | ⟨third, _ | ⟨fourth, _ | ⟨fifth, rest⟩⟩⟩⟩⟩
  any_goals exact .unsupportedText h _
  · exact primary_built visits heeded (hchildren first List.mem_cons_self)
  · simp only [List.forall_mem_cons] at hchildren
    obtain ⟨hfirst, hsecond, -⟩ := hchildren
    exact lowerPair_built visits heeded h hfirst hsecond
  · simp only [List.forall_mem_cons] at hchildren
    obtain ⟨hleft, hmiddle, hright, -⟩ := hchildren
    exact lowerTriple_built visits heeded h hleft hmiddle hright
  · simp only [List.forall_mem_cons] at hchildren
    obtain ⟨hobject, -, hindex, -, -⟩ := hchildren
    simp only [allWithoutSpans, Tree.isText_withoutSpans]
    split
    · refine (value_built visits hobject).bindYielding fun object hobject => ?_
      refine .requireRule hindex.blamed fun _ => ?_
      refine (value_built visits hindex).bindYielding fun index hindex => ?_
      exact .pure ⟨.getIndex hobject hindex, rfl⟩
    · exact .unsupportedText h _

/-! ### Trees -/

/-- A tree is visited as it should be if smaller trees are. -/
theorem visit_built_of_below (h : Below blamed (bound + 1) tree) :
    BuiltAt blamed .value visit tree Emitted := by
  rw [BuiltAt]
  cases tree with
  | leaf category text span =>
    rw [Tree.withoutSpans, visit, visit]
    exact .unsupported h.blamed _
  | node rule children span =>
    rw [Tree.withoutSpans, visit.eq_def, visit.eq_def (.node rule (allWithoutSpans children) _)]
    dsimp only
    have hplain := h.plain heeded
    cases rule with
    | sourceElements | statementList => exact (visitAll_built visits (hplain rfl)).none
    | sourceElement | statement => exact (visitInner_built visits h.blamed (hplain rfl)).none
    | variableStatement => exact (lowerVariable_built visits heeded h).writing.none
    | expressionStatement => exact (lowerExpressionStatement_built visits heeded h).writing.none
    | returnStatement => exact (lowerReturn_built visits heeded h).writing.none
    | functionDeclaration =>
      exact (lowerFunction_built visits heeded h.blamed (hplain rfl)).writing.none
    | block =>
      refine (blockBody_built visits heeded h).bindYielding fun body hbody => ?_
      exact (Built.writeOne h.blamed (.block hbody)).writing.none
    | ifStatement => exact (lowerConditional_built visits heeded h.blamed (hplain rfl)).writing.none
    | emptyStatement => exact .pure (List.forall_mem_nil _)
    | expressionSequence => exact (lowerSequence_built visits h.blamed (hplain rfl)).some
    | singleExpression => exact (lowerExpression_built visits heeded h.blamed (hplain rfl)).some
    | literal =>
      refine .check (Tree.checked_literal heeded h.blamed rfl) fun value _ => ?_
      exact .pure ⟨.literal value, rfl⟩
    | numericLiteral =>
      refine .check (Tree.checked_numericLiteral heeded h.blamed rfl) fun value _ => ?_
      exact .pure ⟨.literal value, rfl⟩
    | arrayLiteral => exact (lowerArray_built visits heeded h).some
    | identifier =>
      refine .check (Tree.checked_identifierName heeded h.blamed) fun name _ => ?_
      exact .pure ⟨.getVariable name, rfl⟩
    | argument | arrayElement => exact (innerValue_built visits h.blamed (hplain rfl)).some
    | _ => exact .unsupported h.blamed _

end

/-- By induction on the bound, all trees are visited as they should be. -/
theorem visit_built_below {blamed : Tree → Prop} (heeded : Heeded blamed) (bound : Nat)
    (tree : Tree) (h : Below blamed bound tree) :
    BuiltAt blamed .value visit tree Emitted := by
  induction bound generalizing tree with
  | zero => exact absurd h.small (Nat.not_lt_zero _)
  | succ bound ih => exact visit_built_of_below ih heeded h

/-- Every tree is visited in steps put together from the basic ones. -/
theorem visit_built {blamed : Tree → Prop} (heeded : Heeded blamed) {tree : Tree}
    (h : blamed tree) :
    BuiltAt blamed .value visit tree Emitted :=
  visit_built_below heeded _ tree ⟨h, Nat.lt_succ_self _⟩

/-! ## What is true of lowering in general -/

/-- A visit yields a value or appends statements. -/
theorem visit_emits (tree : Tree) : Meets .value (visit tree) Emitted :=
  (visit_built heeded_all trivial).meets

/-- The value of a tree, whatever may be at fault. -/
theorem value_built_all (tree : Tree) :
    Built (fun _ => True) .value (value tree) (value tree.withoutSpans) (Yielding IsValue) :=
  value_built (visit_built_below heeded_all _) ⟨trivial, Nat.lt_succ_self _⟩

/-- Whatever stands below the innermost mode, the step does the same. -/
def HeedsInnermost (step : Lowering α) : Prop :=
  ∀ (sinks : Sinks) (first second : List Mode), first.headD .value = second.headD .value →
    ∃ result after, step ⟨sinks, first⟩ = (result, ⟨after, first⟩) ∧
      step ⟨sinks, second⟩ = (result, ⟨after, second⟩)

namespace HeedsInnermost

/-- In a sequence, only the results that occur count. -/
theorem bind {step : Lowering α} {next : α → Lowering β} (h : HeedsInnermost step)
    (hnext : ∀ result state, (step state).1 = .ok result → HeedsInnermost (next result)) :
    HeedsInnermost (step >>= next) := by
  intro sinks first second hmode
  obtain ⟨result, between, hfirst, hsecond⟩ := h sinks first second hmode
  simp only [bind_apply, hfirst, hsecond]
  rcases result with error | result
  · exact ⟨.error error, between, rfl, rfl⟩
  · exact hnext result _ (congrArg Prod.fst hfirst) between first second hmode

/-- A check on the mode reads the innermost one. -/
theorem guardMode [DecidablePred wrong] {next : Lowering α} (h : HeedsInnermost next) :
    HeedsInnermost
      (do
        if wrong (← mode) then MonadExcept.throw error
        next) := by
  intro sinks first second hmode
  rw [guardMode_apply, guardMode_apply, hmode]
  split
  · exact ⟨.error error, sinks, rfl, rfl⟩
  · exact h sinks first second hmode

/-- To append an operation, no mode is read. -/
theorem emit (operation : Operation) (node : Tree) :
    HeedsInnermost (Lowering.emit operation node) := by
  intro sinks _ _ _
  cases sinks with
  | nil => exact ⟨_, _, rfl, rfl⟩
  | cons sink outer => exact ⟨_, _, rfl, rfl⟩

/-- A step in another mode reads that mode. -/
theorem inMode {step : Lowering α} (mode : Mode) (h : HeedsInnermost step) :
    HeedsInnermost (Lowering.inMode mode step) := by
  intro sinks first second _
  obtain ⟨result, after, hfirst, hsecond⟩ := h sinks (mode :: first) (mode :: second) rfl
  refine ⟨result, after, ?_, ?_⟩
  · simp only [Lowering.inMode, hfirst, List.tail_cons]
  · simp only [Lowering.inMode, hsecond, List.tail_cons]

/-- A step in a sink of its own reads the same modes. -/
theorem collect {step : Lowering Unit} {expected : Mode} {post : Unit → List Operation → Prop}
    (kind : SinkKind) (node : Tree) (h : HeedsInnermost step) (hmeets : Meets expected step post) :
    HeedsInnermost (Lowering.collect kind node step) := by
  intro sinks first second hmode
  obtain ⟨error | ⟨⟩, after, hfirst, hsecond⟩ := h (sinks.push kind) first second hmode
  · exact ⟨.error error, after, collect_of_error hfirst, collect_of_error hsecond⟩
  · obtain ⟨-, hrest⟩ := hmeets ⟨sinks.push kind, first⟩
    rw [hfirst] at hrest
    obtain ⟨appended, -, rfl⟩ := hrest
    exact ⟨.ok appended, sinks, collect_of_ok hfirst, collect_of_ok hsecond⟩

end HeedsInnermost

/-- Every step that is built from the basic ones heeds the innermost mode only. -/
theorem Built.heedsInnermost {blamed : Tree → Prop} {expected : Mode} {step twin : Lowering α}
    {post : α → List Operation → Prop} (h : Built blamed expected step twin post) :
    HeedsInnermost step := by
  induction h with
  | pure _ => exact fun sinks _ _ _ => ⟨.ok _, sinks, rfl, rfl⟩
  | throw _ => exact fun sinks _ _ _ => ⟨.error _, sinks, rfl, rfl⟩
  | bind hstep _ ih ihnext =>
    refine ih.bind fun result state hresult => ?_
    obtain ⟨appended, hpost⟩ := hstep.exists_post hresult
    exact ihnext result appended hpost
  | weaken _ _ ih => exact ih
  | guardMode _ _ _ ih => exact ih.guardMode
  | emit operation _ => exact .emit operation _
  | inMode _ ih => exact ih.inMode _
  | collect kind node hstep ih => exact ih.collect kind node hstep.meets

end Lowering

end TreeScript
