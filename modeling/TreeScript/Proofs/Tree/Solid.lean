import TreeScript.Proofs.Lowering.Checks
import TreeScript.Proofs.Tree.Spans

/-!
# Nodes without leaves

Some nodes of the trees of the grammar have no leaves, and so no text: end marks that are left out,
and empty lists of statements and elements. `Tree.Solid` says that there are no others in a tree,
and that it has a leaf itself. What the grammar produces is solid, but for those nodes themselves.
-/

namespace TreeScript

open TreeScript.Tree (allLeaves allLeaves_singleton)

/-! ## Trees with few bare nodes -/

/-- Statements with an end mark enclose no list. -/
theorem Rule.enclosed?_of_isEnded {rule : Rule} (h : rule.isEnded = true) :
    rule.enclosed? = none := by
  cases rule <;> first | rfl | cases h

namespace Tree

/-- A tree with leaves, in which the only nodes without leaves are end marks and the lists between
two marks. -/
inductive Solid : Tree → Prop
  | leaf {category : Category} {text : String} {span : Span} :
      category ≠ .endOfInput → Solid (.leaf category text span)
  | node {rule : Rule} {children : List Tree} {span : Span} :
      children ≠ [] → (∀ child ∈ children, Solid child) → Solid (.node rule children span)
  | ended {rule : Rule} {parts : List Tree} {endSpan span : Span} :
      rule.isEnded = true → parts ≠ [] → (∀ part ∈ parts, Solid part) →
      Solid (.node rule (parts ++ [.node .eos [] endSpan]) span)
  | enclosing {rule inner : Rule} {left right : Tree} {innerSpan span : Span} :
      rule.enclosed? = some inner → Solid left → Solid right →
      Solid (.node rule [left, .node inner [] innerSpan, right] span)

namespace Solid

variable {rule bare : Rule} {left inner right ending : Tree} {rest parts children : List Tree}
  {span : Span}

/-- All children of a plain node are solid. -/
theorem plainParts (h : Solid (.node rule children span)) (hrule : rule.isPlain = true) :
    ∀ child ∈ children, Solid child := by
  cases h with
  | node _ hchildren => exact hchildren
  | ended hended _ _ => simp [Rule.isPlain, hended] at hrule
  | enclosing henclosed _ _ => simp [Rule.isPlain, henclosed] at hrule

/-- The first child of a node is solid. -/
theorem firstChild (h : Solid (.node rule (left :: rest) span)) : Solid left := by
  generalize hall : left :: rest = all at h
  cases h with
  | node _ hchildren => exact hchildren left (hall ▸ List.mem_cons_self)
  | @ended _ parts _ _ _ hparts hsolid =>
    cases parts with
    | nil => exact absurd rfl hparts
    | cons part parts =>
      obtain ⟨rfl, -⟩ := List.cons.inj hall
      exact hsolid left List.mem_cons_self
  | enclosing _ hleft _ =>
    obtain ⟨rfl, -⟩ := List.cons.inj hall
    exact hleft

/-- All children before the end mark are solid. -/
theorem endedParts (h : Solid (.node rule (parts ++ [ending]) span)) (hrule : rule.isEnded = true) :
    (∀ part ∈ parts, Solid part) ∧ (Solid ending ∨ ending.rule? = some .eos) := by
  generalize hall : parts ++ [ending] = all at h
  cases h with
  | node _ hchildren =>
    subst hall
    exact ⟨fun part hpart => hchildren part (List.mem_append_left _ hpart),
      .inl (hchildren ending (List.mem_append_right _ List.mem_cons_self))⟩
  | ended _ _ hsolid =>
    obtain ⟨rfl, hlast⟩ := List.append_inj' hall rfl
    obtain ⟨rfl, -⟩ := List.cons.inj hlast
    exact ⟨hsolid, .inr rfl⟩
  | enclosing henclosed _ _ =>
    rw [Rule.enclosed?_of_isEnded hrule] at henclosed
    cases henclosed

/-- Both marks are solid, and the list between them unless it is empty. -/
theorem enclosedParts (h : Solid (.node rule [left, inner, right] span))
    (hrule : rule.enclosed? = some bare) :
    Solid left ∧ Solid right ∧ (Solid inner ∨ ∃ innerSpan, inner = .node bare [] innerSpan) := by
  generalize hall : [left, inner, right] = all at h
  cases h with
  | node _ hchildren =>
    subst hall
    simp only [List.mem_cons, List.not_mem_nil, or_false, forall_eq_or_imp, forall_eq] at hchildren
    exact ⟨hchildren.1, hchildren.2.2, .inl hchildren.2.1⟩
  | ended hended _ _ =>
    rw [Rule.enclosed?_of_isEnded hended] at hrule
    cases hrule
  | @enclosing _ other _ _ innerSpan _ henclosed hleft hright =>
    cases hall
    rw [hrule] at henclosed
    cases henclosed
    exact ⟨hleft, hright, .inr ⟨innerSpan, rfl⟩⟩

/-- The first leaf of a solid tree is not the end of the input. -/
theorem exists_leaf {tree : Tree} (h : tree.Solid) :
    ∃ leaf ∈ tree.leaves.head?, leaf.category? ≠ some .endOfInput := by
  have hnode (rule : Rule) (span : Span) {first : Tree} (rest : List Tree)
      (hfirst : ∃ leaf ∈ first.leaves.head?, leaf.category? ≠ some .endOfInput) :
      ∃ leaf ∈ (Tree.node rule (first :: rest) span).leaves.head?,
        leaf.category? ≠ some .endOfInput := by
    obtain ⟨leaf, hleaf, hcategory⟩ := hfirst
    refine ⟨leaf, ?_, hcategory⟩
    rw [leaves, allLeaves, List.head?_append, hleaf, Option.some_or]
    rfl
  induction h with
  | leaf hcategory => exact ⟨_, rfl, fun h => hcategory (Option.some.inj h)⟩
  | @node rule children span hne _ ih =>
    cases children with
    | nil => exact absurd rfl hne
    | cons first rest => exact hnode rule span rest (ih first List.mem_cons_self)
  | @ended rule parts endSpan span _ hne _ ih =>
    cases parts with
    | nil => exact absurd rfl hne
    | cons first rest => exact hnode rule span _ (ih first List.mem_cons_self)
  | enclosing _ _ _ ihleft _ => exact hnode _ _ _ ihleft

end Solid

/-- A solid tree that stands in another. -/
structure Firm (root tree : Tree) : Prop where
  stands : ∃ before, tree.Stands before [root]
  solid : tree.Solid

/-- A tree of a list stands somewhere in it. -/
theorem exists_stands_of_mem {tree : Tree} {trees : List Tree} (h : tree ∈ trees) :
    ∃ before, tree.Stands before trees := by
  induction trees with
  | nil => cases h
  | cons other rest ih =>
    rcases List.mem_cons.mp h with rfl | hrest
    · exact ⟨0, .here⟩
    · obtain ⟨before, hstands⟩ := ih hrest
      exact ⟨_, .later hstands⟩

/-- A solid child of a firm tree is firm. -/
theorem Firm.child {root child : Tree} {rule : Rule} {children : List Tree} {span : Span}
    (h : Firm root (.node rule children span)) (hmem : child ∈ children) (hsolid : child.Solid) :
    Firm root child := by
  obtain ⟨before, hstands⟩ := h.stands
  obtain ⟨behind, hchild⟩ := exists_stands_of_mem hmem
  exact ⟨⟨_, hstands.within hchild⟩, hsolid⟩

/-- Firm trees come with their children, but for the nodes without leaves. -/
theorem heeded_firm (root : Tree) : Heeded root.Firm where
  plain h hrule part hmem := h.child hmem (h.solid.plainParts hrule part hmem)
  first h := h.child List.mem_cons_self h.solid.firstChild
  ended parts ending h hrule := by
    obtain ⟨hparts, hending⟩ := h.solid.endedParts hrule
    refine ⟨fun part hmem => h.child (List.mem_append_left _ hmem) (hparts part hmem), ?_⟩
    exact hending.imp_left (h.child (List.mem_append_right _ List.mem_cons_self))
  enclosed h hrule := by
    obtain ⟨hleft, hright, hinner⟩ := h.solid.enclosedParts hrule
    refine ⟨h.child (by simp) hleft, h.child (by simp) hright, hinner.imp_left ?_⟩
    exact h.child (by simp)

/-! ## The grammar -/

/-- Trees that are all solid. -/
def AllSolid (trees : List Tree) : Prop := ∀ tree ∈ trees, tree.Solid

namespace AllSolid

variable {tree : Tree} {trees more : List Tree}

/-- An empty list is solid. -/
theorem nil : AllSolid [] := List.forall_mem_nil _

/-- One more solid tree. -/
theorem cons (h : AllSolid [tree]) (hmore : AllSolid more) : AllSolid (tree :: more) :=
  List.forall_mem_cons.mpr ⟨h tree List.mem_cons_self, hmore⟩

/-- Solid trees after solid trees. -/
theorem append (h : AllSolid trees) (hmore : AllSolid more) : AllSolid (trees ++ more) :=
  List.forall_mem_append.mpr ⟨h, hmore⟩

/-- A node above trees of which there is one at least. -/
theorem wrap {rule : Rule} {span : Span} (h : AllSolid (tree :: more)) :
    AllSolid [.node rule (tree :: more) span] :=
  List.forall_mem_singleton.mpr (.node (List.cons_ne_nil _ _) h)

end AllSolid

end Tree

open TreeScript.Tree (AllSolid)

/-- Tokens are solid. -/
theorem Tree.IsToken.allSolid {test : Kind → Bool} {tree : Tree} (h : tree.IsToken test) :
    AllSolid [tree] := by
  cases h with
  | leaf => exact List.forall_mem_singleton.mpr (.leaf (Category.ofKind_ne_endOfInput _))

/-- What a phrase stands for is solid. Two phrases may stand for a node without leaves instead. -/
def Phrase.Holds (trees : List Tree) : Phrase → Prop
  | program => True
  | ending => AllSolid trees ∨ ∃ span, trees = [.node .eos [] span]
  | sourceElements => AllSolid trees ∨ ∃ span, trees = [.node .sourceElements [] span]
  | _ => AllSolid trees

/-- Where something is taken, the trees are solid. -/
theorem Phrase.Holds.allSolid {phrase : Phrase} {trees : List Tree} (h : phrase.Holds trees)
    (hphrase : phrase.isTaken = true) : AllSolid trees := by
  cases phrase <;> first | exact h | cases hphrase

/-- A list has a first item. -/
theorem Produces.ne_nil_of_list {omits : Bool} {item : Phrase} {trees : List Tree}
    (h : Produces omits (.list item) trees) : ∃ tree more, trees = tree :: more := by
  cases h with
  | oneItem _ => exact ⟨_, _, rfl⟩
  | moreItems _ _ _ => exact ⟨_, _, rfl⟩

/-- A statement behind whose parts an end mark may be left out. -/
theorem allSolid_ended {rule : Rule} {parts : List Tree} {ending : Tree} {span : Span}
    (hrule : rule.isEnded = true) (hne : parts ≠ []) (hparts : AllSolid parts)
    (hending : Phrase.ending.Holds [ending]) : AllSolid [.node rule (parts ++ [ending]) span] := by
  rcases hending with hsolid | ⟨endSpan, hbare⟩
  · have hall : parts ++ [ending] ≠ [] := List.append_ne_nil_of_left_ne_nil hne _
    exact List.forall_mem_singleton.mpr (.node hall (hparts.append hsolid))
  · cases hbare
    exact List.forall_mem_singleton.mpr (.ended hrule hne hparts)

/-- A list between two marks, which may be empty. -/
theorem allSolid_enclosing {rule inner : Rule} {left right : Tree} {items : List Tree}
    {innerSpan span : Span} (hrule : rule.enclosed? = some inner) (hleft : AllSolid [left])
    (hitems : AllSolid items) (hright : AllSolid [right]) :
    AllSolid [.node rule [left, .node inner items innerSpan, right] span] := by
  cases items with
  | nil =>
    have hmarks := And.intro (hleft left List.mem_cons_self) (hright right List.mem_cons_self)
    exact List.forall_mem_singleton.mpr (.enclosing hrule hmarks.1 hmarks.2)
  | cons item more => exact (hleft.cons (hitems.wrap.cons hright)).wrap

/-- The body of a function, whose elements may be none. -/
theorem allSolid_body {opening elements closing : Tree} {span : Span}
    (hopening : AllSolid [opening]) (helements : Phrase.sourceElements.Holds [elements])
    (hclosing : AllSolid [closing]) :
    AllSolid [.node .functionBody [opening, elements, closing] span] := by
  rcases helements with hsolid | ⟨elementsSpan, hbare⟩
  · exact (hopening.cons (hsolid.cons hclosing)).wrap
  · cases hbare
    exact allSolid_enclosing rfl hopening .nil hclosing

/-- What the grammar produces is solid where it has leaves. -/
theorem Produces.holds {omits : Bool} {phrase : Phrase} {trees : List Tree}
    (h : Produces omits phrase trees) (hphrase : phrase.hasTaken = true) : phrase.Holds trees := by
  induction h with
  | oneItem _ ih => exact (ih (Phrase.hasTaken_of_isTaken hphrase)).allSolid hphrase
  | moreItems _ hcomma _ ihtree ihrest =>
    have htree := (ihtree (Phrase.hasTaken_of_isTaken hphrase)).allSolid hphrase
    exact htree.cons (hcomma.allSolid.cons (ihrest hphrase))
  | none => exact .nil
  | more _ _ ihtree ihrest =>
    have htree := (ihtree (Phrase.hasTaken_of_isTaken hphrase)).allSolid hphrase
    exact htree.cons (ihrest hphrase)
  | absent => exact .nil
  | present _ ih => exact (ih (Phrase.hasTaken_of_isTaken hphrase)).allSolid hphrase
  | identifier hname => exact hname.allSolid.wrap
  | memberName _ ih => exact AllSolid.wrap (ih rfl)
  | memberWord hword => exact hword.allSolid.wrap
  | assignable _ ih => exact AllSolid.wrap (ih rfl)
  | tighter _ _ ih => exact ih rfl
  | assignment _ hsign _ ihtarget ihvalue =>
    exact (AllSolid.cons (ihtarget rfl) (hsign.allSolid.cons (ihvalue rfl))).wrap
  | compound _ hsign _ ihtarget ihvalue =>
    exact (AllSolid.cons (ihtarget rfl) (hsign.allSolid.wrap.cons (ihvalue rfl))).wrap
  | binary _ hsign _ ihleft ihright =>
    exact (AllSolid.cons (ihleft rfl) (hsign.allSolid.cons (ihright rfl))).wrap
  | power _ hsign _ ihbase ihexponent =>
    exact (AllSolid.cons (ihbase rfl) (hsign.allSolid.cons (ihexponent rfl))).wrap
  | signed hsign _ ih => exact (hsign.allSolid.cons (ih rfl)).wrap
  | stepped _ hsign ih => exact (AllSolid.cons (ih rfl) hsign.allSolid).wrap
  | member _ hdot _ ihsubject ihname =>
    exact (AllSolid.cons (ihsubject rfl) (hdot.allSolid.cons (ihname rfl))).wrap
  | index _ hleft _ hright ihsubject ihindex =>
    have hrest := AllSolid.cons (ihindex rfl) hright.allSolid
    exact (AllSolid.cons (ihsubject rfl) (hleft.allSolid.cons hrest)).wrap
  | call _ _ ihsubject iharguments =>
    exact (AllSolid.cons (ihsubject rfl) (iharguments rfl)).wrap
  | name _ ih => exact AllSolid.wrap (ih rfl)
  | number hnumber => exact hnumber.allSolid.wrap.wrap.wrap
  | constant hconstant => exact hconstant.allSolid.wrap.wrap
  | array hleft _ hright ih =>
    exact (allSolid_enclosing rfl hleft.allSolid (ih rfl) hright.allSolid).wrap
  | parenthesized hleft _ hright ih =>
    exact (hleft.allSolid.cons (AllSolid.cons (ih rfl) hright.allSolid)).wrap
  | sequence hitems ih =>
    obtain ⟨item, more, rfl⟩ := hitems.ne_nil_of_list
    exact AllSolid.wrap (ih rfl)
  | argument _ ih => exact AllSolid.wrap (ih rfl)
  | noArguments hleft hright => exact (hleft.allSolid.cons hright.allSolid).wrap
  | arguments hleft _ hright ih =>
    exact (hleft.allSolid.cons (AllSolid.append (ih rfl) hright.allSolid)).wrap
  | noElements => exact .nil
  | skippedElement hcomma _ ih => exact hcomma.allSolid.cons (ih rfl)
  | lastElement _ ih => exact AllSolid.wrap (ih rfl)
  | element _ hcomma _ ihvalue ihrest =>
    exact (AllSolid.wrap (ihvalue rfl)).cons (hcomma.allSolid.cons (ihrest rfl))
  | endMark hsemicolon => exact .inl hsemicolon.allSolid.wrap
  | noEndMark _ => exact .inr ⟨_, rfl⟩
  | bareDeclarator _ ih => exact AllSolid.wrap (ih rfl)
  | declarator _ hsign _ ihname ihvalue =>
    exact (AllSolid.cons (ihname rfl) (hsign.allSolid.cons (ihvalue rfl))).wrap
  | @variableStatement modifier ending declarators modifierSpan listSpan _ hmodifier _ _ ihlist
      ihending =>
    have hlist : AllSolid [.node .variableDeclarationList
        (.node .varModifier [modifier] modifierSpan :: declarators) listSpan] :=
      (hmodifier.allSolid.wrap.cons (ihlist rfl)).wrap
    exact allSolid_ended rfl (List.cons_ne_nil _ _) hlist (ihending rfl)
  | emptyStatement hsemicolon => exact hsemicolon.allSolid.wrap
  | expressionStatement _ _ ihsequence ihending =>
    exact allSolid_ended rfl (List.cons_ne_nil _ _) (ihsequence rfl) (ihending rfl)
  | returnStatement hkeyword _ _ ihvalue ihending =>
    have hparts := hkeyword.allSolid.cons (ihvalue rfl)
    exact allSolid_ended rfl (List.cons_ne_nil _ _) hparts (ihending rfl)
  | parameter _ ih => exact AllSolid.wrap (ih rfl)
  | parameterList hparameters ih =>
    obtain ⟨parameter, more, rfl⟩ := hparameters.ne_nil_of_list
    exact AllSolid.wrap (ih rfl)
  | function hkeyword _ hleft _ hright hopening _ hclosing ihname ihparameters ihelements =>
    have hmarks := hkeyword.allSolid.cons (AllSolid.cons (ihname rfl) hleft.allSolid)
    refine ((hmarks.append (ihparameters rfl)).append (hright.allSolid.cons ?_)).wrap
    exact allSolid_body hopening.allSolid (ihelements rfl) hclosing.allSolid
  | block hopening _ hclosing ih =>
    exact allSolid_enclosing rfl hopening.allSolid (ih rfl) hclosing.allSolid
  | ifThen hkeyword hleft _ hright _ ihcondition ihconsequence =>
    have hrest := AllSolid.cons (ihcondition rfl) (hright.allSolid.cons (ihconsequence rfl))
    exact (hkeyword.allSolid.cons (hleft.allSolid.cons hrest)).wrap
  | ifThenElse hkeyword hleft _ hright _ _ hotherwise _ ihcondition ihconsequence ihalternative =>
    have helse := hotherwise.allSolid.cons (ihalternative rfl)
    have hbranches := AllSolid.cons (ihconsequence rfl) helse
    have hrest := AllSolid.cons (ihcondition rfl) (hright.allSolid.cons hbranches)
    exact (hkeyword.allSolid.cons (hleft.allSolid.cons hrest)).wrap
  | loop hkeyword hleft _ hright _ ihcondition ihbody =>
    have hrest := AllSolid.cons (ihcondition rfl) (hright.allSolid.cons (ihbody rfl))
    exact (hkeyword.allSolid.cons (hleft.allSolid.cons hrest)).wrap
  | statement hform _ ih =>
    have htaken := Phrase.isTaken_of_mem_statementForms hform
    exact ((ih (Phrase.hasTaken_of_isTaken htaken)).allSolid htaken).wrap
  | sourceElement _ ih => exact AllSolid.wrap (ih rfl)
  | @sourceElements elements span _ ih =>
    cases elements with
    | nil => exact .inr ⟨span, rfl⟩
    | cons element more => exact .inl (AllSolid.wrap (ih rfl))
  | program => trivial

end TreeScript
