import TreeScript.Proofs.Lowering.Assignment

/-!
# Places are read as they are written

An expression that can be assigned to is lowered in two ways: to the place that it designates, and
to its value. The value is the reading of the place, so an assignment to an expression and a use of
the same expression mean the same variable, member or element.

There is one exception. The name behind a dot is looked at more closely in a value than in a
place: a place takes the identifier in front of it, or else its whole text, while a value wants it
to be made of one identifier or one leaf. The names for which both are the same are those that
are made so, where the leaf is not an end of the input with a text of its own.
-/

namespace TreeScript

/-! ## Names of members -/

/-- A name that is made of one identifier, or of one leaf whose text is also the text of the
name. -/
def Tree.NamesMember (name : Tree) : Prop :=
  ∃ inner, name.children = [inner] ∧
    (inner.rule? = some .identifier ∨
      inner.isLeaf = true ∧ (inner.category? = some .endOfInput → inner.text = ""))

namespace Tree

/-- The text of a node with one leaf below is that of the leaf, unless this is the end of the
input, which has none. -/
theorem text_node_leaf (rule : Rule) (category : Category) (text : String) (span around : Span) :
    (node rule [leaf category text span] around).text =
      if category = .endOfInput then "" else text := by
  change joinedText (leaf category text span) ++ "" = _
  by_cases hend : category = .endOfInput
  · rw [hend, if_pos rfl]
    rfl
  · rw [if_neg hend, String.append_empty, joinedText]
    exact fun hcategory => absurd hcategory hend

/-- A name behind a dot that is good for a place is read as the same name exactly if it is made of
one part. -/
theorem memberName_eq_iff {name : Tree} {text : String} (hrule : name.rule? = some .identifierName)
    (htarget : name.targetMemberName = .ok text) :
    name.memberName = .ok text ↔ name.NamesMember := by
  cases name with
  | leaf => cases hrule
  | node rule children span =>
    cases hrule
    rcases children with _ | ⟨inner, _ | ⟨other, rest⟩⟩
    · constructor
      · intro h
        cases h
      · rintro ⟨_, h, -⟩
        cases h
    · -- One part: an identifier is named by both, a leaf by its own text and by that of the node.
      cases inner with
      | node rule below around =>
        by_cases hidentifier : rule = .identifier
        · subst hidentifier
          exact ⟨fun _ => ⟨_, rfl, .inl rfl⟩, fun _ => htarget⟩
        · have hne : (node rule below around).rule? ≠ some .identifier :=
            fun h => hidentifier (Option.some.inj h)
          refine ⟨fun h => ?_, ?_⟩
          · unfold memberName at h
            simp only [onlyChild, children, bind, Except.bind, if_neg hne] at h
            cases h
          · rintro ⟨_, hchildren, h | ⟨h, -⟩⟩ <;> cases hchildren
            · exact absurd h hne
            · cases h
      | leaf category own around =>
        have htext : text = if category = .endOfInput then "" else own := by
          rw [← text_node_leaf .identifierName category own around span]
          exact (Except.ok.inj htarget).symm
        have hmember : memberName (node .identifierName [leaf category own around] span) =
          .ok own := rfl
        rw [hmember, htext, Except.ok.injEq]
        constructor
        · intro hown
          refine ⟨_, rfl, .inr ⟨rfl, fun hend => ?_⟩⟩
          rwa [if_pos (Option.some.inj hend)] at hown
        · rintro ⟨_, hchildren, h | ⟨-, hend⟩⟩ <;> cases hchildren
          · cases h
          · split
            · rename_i hcategory
              exact hend (congrArg some hcategory)
            · rfl
    · constructor
      · intro h
        cases h
      · rintro ⟨_, h, -⟩
        cases h

end Tree

/-! ## What a target is made of -/

namespace Lowering

variable {state after : LoweringState} {tree : Tree} {place : Target} {operation : Operation}

/-- Lowering a value changes nothing. -/
theorem state_of_value (h : value tree state = (.ok operation, after)) : after = state := by
  have hyields := (value_built_all tree).meets state
  rw [h] at hyields
  obtain ⟨hmodes, _, ⟨-, rfl⟩, hsinks⟩ := hyields
  rw [Sinks.extend_nil] at hsinks
  obtain ⟨sinks, modes⟩ := after
  cases hmodes
  cases hsinks
  rfl

/-- A value inside a target is lowered as it is outside. -/
theorem value_of_inMode (hmode : state.modes.headD .value = .value)
    (h : inMode .value (value tree) { state with modes := .target :: state.modes } =
      (.ok operation, after)) :
    value tree state = (.ok operation, state) ∧
      after = { state with modes := .target :: state.modes } := by
  obtain ⟨sinks, modes⟩ := state
  obtain ⟨result, between, houter, hinner⟩ :=
    (value_built_all tree).heedsInnermost sinks modes (.value :: .target :: modes) hmode
  simp only [inMode, hinner, List.tail_cons] at h
  obtain ⟨rfl, rfl⟩ := h
  cases state_of_value houter
  exact ⟨houter, rfl⟩

/-- A tree designates a place, given what its parts are lowered to. -/
inductive Designates (state : LoweringState) : Tree → Target → Prop
  | named {inner : Tree} {span : Span} {name : String} : inner.rule? = some .identifier →
      inner.identifierName = .ok name →
      Designates state (.node .singleExpression [inner] span) (.named name)
  | member {object dot name : Tree} {span : Span} {operation : Operation} {text : String} :
      dot.isText "." = true → value object state = (.ok operation, state) →
      name.rule? = some .identifierName → name.targetMemberName = .ok text →
      Designates state (.node .singleExpression [object, dot, name] span) (.member operation text)
  | index {object left index right : Tree} {span : Span} {operation position : Operation} :
      (left.isText "[" && right.isText "]") = true → value object state = (.ok operation, state) →
      index.rule? = some .expressionSequence → value index state = (.ok position, state) →
      Designates state (.node .singleExpression [object, left, index, right] span)
        (.index operation position)

/-- What is lowered to a place designates it. -/
theorem designates_of_target (hmode : state.modes.headD .value = .value)
    (h : target tree state = (.ok place, after)) : Designates state tree place := by
  obtain ⟨final, hshape, -⟩ := shapes_of_target h
  cases hshape with
  | named hrule hname => exact .named hrule hname
  | member hdot hinside hrule hname =>
    obtain ⟨hobject, -⟩ := value_of_inMode hmode hinside
    exact .member hdot hobject hrule hname
  | index hbrackets hinside hrule hbetween =>
    obtain ⟨hobject, rfl⟩ := value_of_inMode hmode hinside
    obtain ⟨hposition, -⟩ := value_of_inMode hmode hbetween
    exact .index hbrackets hobject hrule hposition

/-! ## What the same tree is lowered to as a value -/

/-- A leaf has no value. -/
theorem isText_of_value (h : value tree state = (.ok operation, after)) (text : String) :
    tree.isText text = false := by
  cases tree with
  | node => rfl
  | leaf =>
    rw [value, visit.eq_def] at h
    cases h

/-- A member is read under the name that values take. -/
theorem value_of_member {object dot name : Tree} {span : Span}
    (hmode : state.modes.headD .value = .value) (hdot : dot.isText "." = true)
    (hobject : value object state = (.ok operation, state)) :
    value (.node .singleExpression [object, dot, name] span) state =
      (name.memberName.map (Operation.getMember operation), state) := by
  obtain ⟨hleaf, htext⟩ := Bool.and_eq_true_iff.mp hdot
  rw [value_triple hmode, lowerTriple_leaf (isText_of_value hobject _) hleaf,
    if_pos (eq_of_beq htext), bind_apply, hobject]
  cases name.memberName <;> rfl

/-- An element is read from the list and at the position that are designated. -/
theorem value_of_index {object left index right : Tree} {span : Span} {position : Operation}
    (hmode : state.modes.headD .value = .value)
    (hbrackets : (left.isText "[" && right.isText "]") = true)
    (hobject : value object state = (.ok operation, state))
    (hrule : index.rule? = some .expressionSequence)
    (hindex : value index state = (.ok position, state)) :
    value (.node .singleExpression [object, left, index, right] span) state =
      (.ok (.getIndex operation position), state) := by
  rw [value_singleExpression, lowerExpression, bind_apply, mode_apply hmode]
  simp only [if_pos hbrackets, Tree.requireRule, if_pos hrule]
  change (value object >>= _) state = _
  rw [bind_apply, hobject]
  change (value index >>= _) state = _
  rw [bind_apply, hindex]
  rfl

/-- Lowered for its value, a tree that designates a place yields the reading of the place, exactly
if its member name, should it have one, is made of one part. -/
theorem Designates.value_eq_read_iff (hmode : state.modes.headD .value = .value)
    (h : Designates state tree place) :
    value tree state = (.ok place.read, state) ↔
      ∀ object dot name span, tree = .node .singleExpression [object, dot, name] span →
        name.NamesMember := by
  cases h with
  | named hrule hname =>
    refine ⟨fun _ _ _ _ _ htree => ?_, fun _ => value_of_identifier hmode hrule hname⟩
    cases htree
  | @member object dot name span operation text hdot hobject hrule hname =>
    have hiff := Tree.memberName_eq_iff hrule hname
    rw [value_of_member hmode hdot hobject, Target.read]
    constructor
    · intro hread _ _ _ _ htree
      cases htree
      apply hiff.mp
      cases hmember : name.memberName with
      | error error =>
        rw [hmember] at hread
        cases hread
      | ok found =>
        rw [hmember] at hread
        cases hread
        rfl
    · intro hnames
      rw [hiff.mpr (hnames object dot name span rfl)]
      rfl
  | index hbrackets hobject hrule hposition =>
    refine ⟨fun _ _ _ _ _ htree => ?_,
      fun _ => value_of_index hmode hbrackets hobject hrule hposition⟩
    cases htree

/-- Whatever the tree and the state, as long as expressions are lowered for their values: if a tree
is lowered to a place, its value is lowered to the reading of that place, unless the tree is a
member whose name is not made of one part. In that case, and only then, it is not. -/
theorem value_reads_target (tree : Tree) (state after : LoweringState) (place : Target)
    (hmode : state.modes.headD .value = .value) (h : target tree state = (.ok place, after)) :
    value tree state = (.ok place.read, state) ↔
      ∀ object dot name span, tree = .node .singleExpression [object, dot, name] span →
        name.NamesMember :=
  (designates_of_target hmode h).value_eq_read_iff hmode

section

/-- The tree of an identifier. -/
def identifierTree (name : String) : Tree :=
  .node .identifier [.leaf .identifier name (Span.point 0)] (Span.point 0)

/-- The tree of a variable. -/
def variableTree (name : String) : Tree :=
  .node .singleExpression [identifierTree name] (Span.point 0)

/-- The tree of a member, where the name behind the dot is made of the given parts. -/
def memberTree (object : Tree) (name : List Tree) : Tree :=
  .node .singleExpression
    [object, .leaf .punctuator "." (Span.point 0), .node .identifierName name (Span.point 0)]
    (Span.point 0)

/-- The tree of an element. -/
def indexTree (object position : Tree) : Tree :=
  .node .singleExpression
    [object, .leaf .punctuator "[" (Span.point 0),
      .node .expressionSequence [position] (Span.point 0), .leaf .punctuator "]" (Span.point 0)]
    (Span.point 0)

/-- The member `b` of the element `a[i]`, inside a function. -/
theorem value_reads_target_of_element :
    let tree := memberTree (indexTree (variableTree "a") (variableTree "i")) [identifierTree "b"]
    let place := Target.member (.getIndex (.getVariable "a") (.getVariable "i")) "b"
    let state : LoweringState := ⟨[⟨.function, []⟩, ⟨.program, []⟩], [.value]⟩
    target tree state = (.ok place, state) ∧ value tree state = (.ok place.read, state) := by
  intro tree place state
  have htarget : target tree state = (.ok place, state) := by
    simp only [tree, memberTree, indexTree, variableTree, identifierTree, target, targetShape,
      value, visit, lowerExpression, lowerSequence, primary]
    rfl
  refine ⟨htarget, (value_reads_target tree state state place rfl htarget).mpr ?_⟩
  intro object dot name span htree
  dsimp only [tree, memberTree] at htree
  cases htree
  exact ⟨_, rfl, .inl rfl⟩

/-- A name of two identifiers is written under the first and cannot be read. A name made of an end
of the input that has a text is written under the empty name and read under that text. -/
theorem target_not_read :
    let twice := memberTree (variableTree "a") [identifierTree "b", identifierTree "c"]
    let ended := memberTree (variableTree "a") [.leaf .endOfInput "b" (Span.point 0)]
    (target twice initial = (.ok (.member (.getVariable "a") "b"), initial) ∧
      ∃ error, value twice initial = (.error error, initial)) ∧
    target ended initial = (.ok (.member (.getVariable "a") ""), initial) ∧
      value ended initial = (.ok (.getMember (.getVariable "a") "b"), initial) := by
  intro twice ended
  have hobject : value (variableTree "a") initial = (.ok (.getVariable "a"), initial) :=
    value_of_identifier rfl rfl rfl
  refine ⟨⟨?_, ?_⟩, ?_, ?_⟩
  · simp only [twice, memberTree, variableTree, identifierTree, target, targetShape, value, visit,
      lowerExpression, primary]
    rfl
  · exact ⟨_, value_of_member rfl rfl hobject⟩
  · simp only [ended, memberTree, variableTree, identifierTree, target, targetShape, value, visit,
      lowerExpression, primary]
    rfl
  · exact value_of_member rfl rfl hobject

end

end Lowering

end TreeScript
