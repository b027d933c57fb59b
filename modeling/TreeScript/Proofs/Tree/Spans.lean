import TreeScript.Proofs.Token.Scanner
import TreeScript.Proofs.Tree.LineBreaks

/-!
# The spans of a tree

The span of a node is joined from its first and its last child, and a node without children is put
at an offset of its own. So all spans of a tree are right as long as no part is put at a wrong
offset. A `Seam` is where two leaves of a program meet. A tree that is read from one seam to another
reaches from the start of the first leaf ahead to the end of the last leaf behind, and a tree
without leaves is put at the end of the leaf behind or at the start of the leaf ahead. Derivations
keep this, one rule at a time: `Seam.Spans` is about what takes tokens, and `Seam.Seats` about what
may be read from nothing.
-/

namespace TreeScript

open TreeScript.Tree (allLeaves allLeaves_append allLeaves_singleton branch branch_eq expression
  reach wrap)

variable {sub : Tree} {before : Nat} {chars : List Char}

/-! ## Spans one after another -/

namespace Tree

/-- The spans of the trees follow one another between two offsets, and none is reversed. -/
inductive InOrder : Nat → List Tree → Nat → Prop
  | nil {low high : Nat} : low ≤ high → InOrder low [] high
  | cons {low high : Nat} {tree : Tree} {rest : List Tree} :
      low ≤ tree.span.start → tree.span.start ≤ tree.span.stop →
      InOrder tree.span.stop rest high → InOrder low (tree :: rest) high

section

variable {low high middle next : Nat} {trees later : List Tree} {tree : Tree}

/-- Trees in order, and more trees behind them. -/
theorem InOrder.append (h : InOrder low trees middle) (hnext : middle ≤ next)
    (hlater : InOrder next later high) : InOrder low (trees ++ later) high := by
  induction h with
  | nil hle =>
    cases hlater with
    | nil hhigh => exact .nil (by omega)
    | cons hstart hstop hrest => exact .cons (by omega) hstop hrest
  | cons hstart hstop _ ih => exact .cons hstart hstop (ih hnext)

/-- Trees in order between bounds are so between wider ones. -/
theorem InOrder.mono {lower higher : Nat} (h : InOrder low trees high) (hlow : lower ≤ low)
    (hhigh : high ≤ higher) : InOrder lower trees higher := by
  have hlower := (InOrder.nil hlow).append le_rfl h
  have hboth := hlower.append le_rfl (.nil hhigh)
  rwa [List.nil_append, List.append_nil] at hboth

/-- The spans are between the offsets. -/
theorem InOrder.bounds (h : InOrder low trees high) :
    low ≤ high ∧ ∀ tree ∈ trees, low ≤ tree.span.start ∧ tree.span.stop ≤ high := by
  induction h with
  | nil hle => exact ⟨hle, List.forall_mem_nil _⟩
  | cons hstart hstop _ ih =>
    obtain ⟨hle, hrest⟩ := ih
    refine ⟨by omega, List.forall_mem_cons.mpr ⟨⟨hstart, hle⟩, fun other hother => ?_⟩⟩
    have := hrest other hother
    omega

/-- In order, each tree ends before the next begins. -/
theorem InOrder.pairwise (h : InOrder low trees high) :
    trees.Pairwise fun first second => first.span.stop ≤ second.span.start := by
  induction h with
  | nil => exact .nil
  | cons _ _ hrest ih => exact .cons (fun other hother => (hrest.bounds.2 other hother).1) ih

/-- The spans follow one another and reach from one offset to the other. -/
structure Fills (low : Nat) (trees : List Tree) (high : Nat) : Prop where
  inOrder : InOrder low trees high
  opens : trees.head?.map (·.span.start) = some low
  closes : trees.getLast?.map (·.span.stop) = some high

/-- A tree fills its own span. -/
theorem Fills.of_span (h : tree.span = ⟨low, high⟩) (hle : low ≤ high) : Fills low [tree] high where
  inOrder := .cons (by rw [h]) (by rwa [h]) (.nil (by rw [h]))
  opens := by rw [List.head?_cons, Option.map_some, h]
  closes := by rw [List.getLast?_singleton, Option.map_some, h]

/-- Between what reaches to the offsets, the other spans need not reach anywhere. -/
theorem Fills.around {between : List Tree} {low' high' : Nat} (h : Fills low trees middle)
    (hbetween : InOrder low' between high') (hlater : Fills next later high)
    (hlow : middle ≤ low') (hhigh : high' ≤ next) : Fills low (trees ++ between ++ later) high where
  inOrder := (h.inOrder.append hlow hbetween).append hhigh hlater.inOrder
  opens := by
    obtain ⟨first, hfirst, hstart⟩ := Option.map_eq_some_iff.mp h.opens
    rw [List.append_assoc, List.head?_append, hfirst, Option.some_or, Option.map_some, hstart]
  closes := by
    obtain ⟨last, hlast, hstop⟩ := Option.map_eq_some_iff.mp hlater.closes
    rw [List.getLast?_append, hlast, Option.some_or, Option.map_some, hstop]

/-- Trees that fill, and more behind them. -/
theorem Fills.append (h : Fills low trees middle) (hnext : middle ≤ next)
    (hlater : Fills next later high) : Fills low (trees ++ later) high := by
  have haround := h.around (.nil le_rfl) hlater hnext le_rfl
  rwa [List.append_nil] at haround

/-- A node above such trees reaches as far. -/
theorem Fills.reach_eq (h : Fills low trees high) (anchor : Nat) :
    reach trees anchor = ⟨low, high⟩ := by
  obtain ⟨first, hfirst, hstart⟩ := Option.map_eq_some_iff.mp h.opens
  obtain ⟨last, hlast, hstop⟩ := Option.map_eq_some_iff.mp h.closes
  have hafter := h.inOrder.bounds.2 last (List.mem_of_getLast? hlast)
  have hbefore := h.inOrder.bounds.2 first (List.mem_of_head? hfirst)
  simp only [reach, hfirst, hlast, Span.join, Span.mk.injEq]
  omega

end

end Tree

/-! ## Seams between leaves -/

/-- A seam between the leaves of a program. -/
structure Seam where
  /-- The leaves ahead. -/
  ahead : List Tree
  /-- The offset where the leaf behind ended. -/
  previousEnd : Nat

namespace Seam

open TreeScript.Tree (InOrder Fills)

/-- The offset where the next leaf starts. -/
def start (p : Seam) : Nat := (p.ahead.head?.map (·.span.start)).getD p.previousEnd

/-- The seam behind so many more leaves. -/
def after : Seam → Nat → Seam
  | p, 0 => p
  | ⟨[], previousEnd⟩, _ + 1 => ⟨[], previousEnd⟩
  | ⟨leaf :: rest, _⟩, count + 1 => after ⟨rest, leaf.span.stop⟩ count

/-- The leaves ahead follow one another from here on. -/
def Orderly (p : Seam) : Prop := ∃ high, InOrder p.previousEnd p.ahead high

/-- No step leads nowhere. -/
theorem after_zero (p : Seam) : p.after 0 = p := by rw [after]

/-- There is nothing behind the last leaf. -/
theorem after_nil (previousEnd count : Nat) :
    after ⟨[], previousEnd⟩ count = ⟨[], previousEnd⟩ := by
  cases count <;> rw [after]

/-- Steps add up. -/
theorem after_add (p : Seam) (count more : Nat) :
    (p.after count).after more = p.after (count + more) := by
  fun_induction after p count with
  | case1 => rw [Nat.zero_add]
  | case2 => simp only [after_nil]
  | case3 leaf rest previousEnd count ih =>
    rw [ih, Nat.succ_add, after]

/-- Each step has one leaf less ahead. -/
theorem ahead_after (p : Seam) (count : Nat) : (p.after count).ahead = p.ahead.drop count := by
  fun_induction after p count with
  | case1 => rfl
  | case2 => rfl
  | case3 _ _ _ _ ih => exact ih

/-- The leaf behind is the last one that was passed. -/
theorem previousEnd_after (p : Seam) (count : Nat) :
    (p.after count).previousEnd =
      ((p.ahead.take count).getLast?.map (·.span.stop)).getD p.previousEnd := by
  fun_induction after p count with
  | case1 => rfl
  | case2 => rfl
  | case3 leaf rest previousEnd count ih =>
    rw [ih, List.take_succ_cons, List.getLast?_cons]
    cases (rest.take count).getLast? <;> rfl

/-- Leaves stay in order further on. -/
theorem Orderly.after {p : Seam} (h : p.Orderly) (count : Nat) : (p.after count).Orderly := by
  fun_induction Seam.after p count with
  | case1 => exact h
  | case2 => exact h
  | case3 _ _ _ _ ih =>
    obtain ⟨high, hahead⟩ := h
    cases hahead with
    | cons _ _ hrest => exact ih ⟨high, hrest⟩

/-- The leaf behind ends before the leaf ahead begins. -/
theorem Orderly.previousEnd_le_start {p : Seam} (h : p.Orderly) : p.previousEnd ≤ p.start := by
  obtain ⟨ahead, previousEnd⟩ := p
  obtain ⟨high, hahead⟩ := h
  cases hahead with
  | nil => exact le_rfl
  | cons hstart _ _ => exact hstart

end Seam

/-! ## Trees between seams -/

open Seam
open TreeScript.Tree (InOrder Fills)

/-- How a tree that begins at a seam has to lie. -/
structure Tree.Fits (tree : Tree) (p : Seam) : Prop where
  /-- It reaches from the start of its first leaf to the end of its last one. -/
  filled : tree.leaves ≠ [] →
    tree.span = ⟨p.start, (p.after tree.leaves.length).previousEnd⟩
  /-- Without leaves it is at the end of the leaf behind or at the start of the leaf ahead. -/
  bare : tree.leaves = [] → tree.span = .point p.previousEnd ∨ tree.span = .point p.start
  /-- Its children follow one another inside it. -/
  inOrder : InOrder tree.span.start tree.children tree.span.stop

namespace Seam

/-- Everything in the trees lies as it has to, and they lie between the leaves that are not
theirs. -/
structure Seats (p : Seam) (trees : List Tree) (q : Seam) : Prop where
  reaches : q = p.after (allLeaves trees).length
  inOrder : p.Orderly → InOrder p.previousEnd trees q.start
  fits : p.Orderly → ∀ {sub : Tree} {before : Nat}, sub.Stands before trees →
    sub.Fits (p.after before)

/-- Everything in the trees lies as it has to, and they reach from their first leaf to their last
one. -/
structure Spans (p : Seam) (trees : List Tree) (q : Seam) : Prop where
  reaches : q = p.after (allLeaves trees).length
  taken : allLeaves trees ≠ []
  fills : p.Orderly → Fills p.start trees q.previousEnd
  fits : p.Orderly → ∀ {sub : Tree} {before : Nat}, sub.Stands before trees →
    sub.Fits (p.after before)

variable {p q r s : Seam} {rule : Rule} {trees children rest later between : List Tree}
  {tree : Tree}

/-- What spans leaves is seated. -/
theorem Spans.seats (h : p.Spans trees q) : p.Seats trees q where
  reaches := h.reaches
  inOrder horderly := by
    have hafter : q.Orderly := h.reaches ▸ horderly.after _
    exact (h.fills horderly).inOrder.mono horderly.previousEnd_le_start hafter.previousEnd_le_start
  fits := h.fits

/-- Nothing is seated anywhere. -/
theorem Seats.nil : p.Seats [] p where
  reaches := (after_zero p).symm
  inOrder horderly := .nil horderly.previousEnd_le_start
  fits _ _ _ hstands := by cases hstands

/-- A node without leaves is put at either end of a gap. -/
theorem fits_point {anchor : Nat} (h : anchor = p.previousEnd ∨ anchor = p.start) :
    Tree.Fits (.node rule [] (.point anchor)) p where
  filled hleaves := absurd rfl hleaves
  bare _ := by
    rcases h with rfl | rfl
    · exact .inl rfl
    · exact .inr rfl
  inOrder := .nil le_rfl

/-- A node without leaves is seated at a point. -/
theorem Seats.point (rule : Rule) {anchor : Nat} (h : anchor = p.previousEnd ∨ anchor = p.start) :
    p.Seats [branch rule [] anchor] p where
  reaches := (after_zero p).symm
  inOrder horderly := by
    have hle := horderly.previousEnd_le_start
    refine .cons ?_ le_rfl (.nil ?_)
    · change p.previousEnd ≤ anchor
      omega
    · change anchor ≤ p.start
      omega
  fits _ _ _ hstands := by
    cases hstands with
    | here => exact fits_point h
    | inside hinside => cases hinside
    | later hlater => cases hlater

/-- Steps over trees add up. -/
theorem reaches_append (h : q = p.after (allLeaves trees).length)
    (hlater : r = q.after (allLeaves later).length) :
    r = p.after (allLeaves (trees ++ later)).length := by
  rw [hlater, h, after_add, allLeaves_append, List.length_append]

/-- What fits in two lists fits in both together. -/
theorem fits_append (h : q = p.after (allLeaves trees).length)
    (hfits : ∀ {sub : Tree} {before : Nat}, sub.Stands before trees → sub.Fits (p.after before))
    (hlater : ∀ {sub : Tree} {before : Nat}, sub.Stands before later → sub.Fits (q.after before))
    (hstands : sub.Stands before (trees ++ later)) :
    sub.Fits (p.after before) := by
  rcases hstands.append with hfirst | ⟨behind, rfl, hbehind⟩
  · exact hfits hfirst
  · rw [← after_add, ← h]
    exact hlater hbehind

/-- Trees that take tokens may have others between them that take none. -/
theorem Spans.around (h : p.Spans trees q) (hbetween : q.Seats between r)
    (hlater : r.Spans later s) : p.Spans (trees ++ between ++ later) s where
  reaches := reaches_append (reaches_append h.reaches hbetween.reaches) hlater.reaches
  taken hnil := by
    rw [allLeaves_append, allLeaves_append, List.append_assoc] at hnil
    exact h.taken (List.append_eq_nil_iff.mp hnil).1
  fills horderly := by
    have hq : q.Orderly := h.reaches ▸ horderly.after _
    have hr : r.Orderly := hbetween.reaches ▸ hq.after _
    exact (h.fills horderly).around (hbetween.inOrder hq) (hlater.fills hr) le_rfl le_rfl
  fits horderly _ _ hstands := by
    have hq : q.Orderly := h.reaches ▸ horderly.after _
    have hr : r.Orderly := hbetween.reaches ▸ hq.after _
    refine fits_append (reaches_append h.reaches hbetween.reaches) (fun hfirst => ?_)
      (hlater.fits hr) hstands
    exact fits_append h.reaches (h.fits horderly) (hbetween.fits hq) hfirst

/-- Spans follow one another. -/
theorem Spans.append (h : p.Spans trees q) (hlater : q.Spans later r) :
    p.Spans (trees ++ later) r := by
  have haround := h.around .nil hlater
  rwa [List.append_nil] at haround

/-- A tree in front of trees. -/
theorem Spans.cons (h : p.Spans [tree] q) (hrest : q.Spans rest r) : p.Spans (tree :: rest) r :=
  h.append hrest

/-- A node without leaves may come last at the end of the leaf behind it. -/
theorem Spans.append_point (h : p.Spans trees q) (rule : Rule) :
    p.Spans (trees ++ [branch rule [] q.previousEnd]) q where
  reaches := reaches_append h.reaches (after_zero q).symm
  taken hnil := by
    rw [allLeaves_append] at hnil
    exact h.taken (List.append_eq_nil_iff.mp hnil).1
  fills horderly := (h.fills horderly).append le_rfl (.of_span rfl le_rfl)
  fits horderly _ _ hstands := by
    have hq : q.Orderly := h.reaches ▸ horderly.after _
    exact fits_append h.reaches (h.fits horderly) ((Seats.point rule (.inl rfl)).fits hq) hstands

/-- A node without leaves may come first at the start of the leaf ahead of it. -/
theorem Spans.cons_point (h : p.Spans trees q) (rule : Rule) :
    p.Spans (branch rule [] p.start :: trees) q where
  reaches := h.reaches
  taken := h.taken
  fills horderly := by
    have hpoint : Fills p.start [branch rule [] p.start] p.start := .of_span rfl le_rfl
    exact hpoint.append le_rfl (h.fills horderly)
  fits horderly _ _ hstands := by
    have hpoint : p.Seats [branch rule [] p.start] p := .point rule (.inr rfl)
    exact fits_append hpoint.reaches (hpoint.fits horderly) (h.fits horderly) hstands

/-- A node above trees that take tokens lies where they do. -/
theorem Spans.branch (h : p.Spans children q) (rule : Rule) (anchor : Nat) :
    p.Spans [branch rule children anchor] q where
  reaches := by
    rw [branch_eq, allLeaves_singleton, Tree.leaves]
    exact h.reaches
  taken := by
    rw [branch_eq, allLeaves_singleton, Tree.leaves]
    exact h.taken
  fills horderly := by
    have hfills := h.fills horderly
    rw [branch_eq, hfills.reach_eq]
    exact .of_span rfl hfills.inOrder.bounds.1
  fits horderly _ _ hstands := by
    have hfills := h.fills horderly
    rw [branch_eq, hfills.reach_eq] at hstands
    cases hstands with
    | here =>
      rw [after_zero]
      refine ⟨fun _ => ?_, fun hnil => absurd hnil h.taken, hfills.inOrder⟩
      rw [Tree.leaves, ← h.reaches]
      rfl
    | inside hinside => exact h.fits horderly hinside
    | later hlater => cases hlater

/-- A node above one tree spans as it does. -/
theorem Spans.wrap (h : p.Spans [tree] q) (rule : Rule) : p.Spans [wrap rule tree] q :=
  h.branch rule _

/-- An expression spans as its parts do. -/
theorem Spans.expression (h : p.Spans trees q) : p.Spans [expression trees] q :=
  h.branch .singleExpression 0

/-- A leaf spans itself. -/
theorem spans_leaf (category : Category) (text : String) (span : Span) (ahead : List Tree)
    (previousEnd : Nat) :
    Spans ⟨.leaf category text span :: ahead, previousEnd⟩ [.leaf category text span]
      ⟨ahead, span.stop⟩ where
  reaches := rfl
  taken := List.cons_ne_nil _ _
  fills horderly := by
    obtain ⟨high, hahead⟩ := horderly
    cases hahead with
    | cons _ hspan _ => exact .of_span rfl hspan
  fits horderly _ _ hstands := by
    obtain ⟨high, hahead⟩ := horderly
    cases hahead with
    | cons _ hspan _ =>
      cases hstands with
      | here => exact ⟨fun _ => rfl, fun hnil => absurd hnil (List.cons_ne_nil _ _), .nil hspan⟩
      | later hlater => cases hlater

end Seam

/-! ## Derivations keep it -/

namespace Cursor

/-- The seam that a cursor is at. -/
def seam (c : Cursor) : Seam := ⟨c.tokens.map Token.leaf ++ [c.endLeaf], c.previousEnd⟩

/-- A seam starts where its cursor does. -/
theorem start_seam (c : Cursor) : c.seam.start = c.start := by
  unfold seam Seam.start Cursor.start
  cases c.tokens <;> rfl

/-- A token that is taken spans itself. -/
theorem Takes.spans {test : Kind → Bool} {c c₁ : Cursor} {token : Token}
    (h : c.Takes test token c₁) : c.seam.Spans [token.leaf] c₁.seam := by
  cases h
  exact spans_leaf _ _ _ _ _

end Cursor

open Cursor

/-- The phrases that cannot be read from nothing. -/
def Phrase.isTaken : Phrase → Bool
  | program | many _ | optional _ | elements | ending | sourceElements => false
  | list item => item.isTaken
  | _ => true

/-- The parts of a program whose items cannot be read from nothing. -/
def Phrase.hasTaken : Phrase → Bool
  | program => false
  | list item | many item | optional item => item.isTaken
  | _ => true

/-- What is read for a phrase takes tokens and lies where they do. A phrase that can be read from
nothing leaves no trees then, or one at the offset where it belongs. -/
def Phrase.Lies (c : Cursor) (trees : List Tree) (c₁ : Cursor) : Phrase → Prop
  | program => True
  | many _ | optional _ | elements => c.seam.Spans trees c₁.seam ∨ c₁ = c ∧ trees = []
  | ending => c.seam.Spans trees c₁.seam ∨ c₁ = c ∧ trees = [branch .eos [] c.previousEnd]
  | sourceElements =>
    c.seam.Spans trees c₁.seam ∨ c₁ = c ∧ trees = [branch .sourceElements [] c.start]
  | _ => c.seam.Spans trees c₁.seam

section

variable {phrase : Phrase} {c c₁ c₂ : Cursor} {trees items more : List Tree} {tree : Tree}

/-- What takes a token may take one. -/
theorem Phrase.hasTaken_of_isTaken (h : phrase.isTaken = true) : phrase.hasTaken = true := by
  cases phrase <;> first | rfl | exact h | cases h

/-- Every statement takes a token. -/
theorem Phrase.isTaken_of_mem_statementForms (h : phrase ∈ statementForms) :
    phrase.isTaken = true := by
  revert phrase
  decide

/-- A phrase that takes a token spans its leaves. -/
theorem Phrase.Lies.spans (h : phrase.Lies c trees c₁) (hphrase : phrase.isTaken = true) :
    c.seam.Spans trees c₁.seam := by
  cases phrase <;> first | exact h | cases hphrase

/-- A node above items of which there may be none. -/
theorem seats_branch (h : c.seam.Spans items c₁.seam ∨ c₁ = c ∧ items = []) (rule : Rule) :
    c.seam.Seats [branch rule items c.start] c₁.seam := by
  rcases h with hspans | ⟨rfl, rfl⟩
  · exact (hspans.branch rule _).seats
  · exact .point rule (.inr (start_seam c₁).symm)

/-- Items of which there may be none are seated. -/
theorem seats_of_optional (h : c.seam.Spans items c₁.seam ∨ c₁ = c ∧ items = []) :
    c.seam.Seats items c₁.seam := by
  rcases h with hspans | ⟨rfl, rfl⟩
  · exact hspans.seats
  · exact .nil

/-- Source elements are seated. -/
theorem seats_sourceElements (h : Phrase.sourceElements.Lies c trees c₁) :
    c.seam.Seats trees c₁.seam := by
  rcases h with hspans | ⟨rfl, rfl⟩
  · exact hspans.seats
  · exact .point _ (.inr (start_seam c₁).symm)

/-- Items of which there may be none, behind others. -/
theorem spans_append_optional (h : c.seam.Spans trees c₁.seam)
    (hmore : c₁.seam.Spans more c₂.seam ∨ c₂ = c₁ ∧ more = []) :
    c.seam.Spans (trees ++ more) c₂.seam := by
  rcases hmore with hspans | ⟨rfl, rfl⟩
  · exact h.append hspans
  · rwa [List.append_nil]

/-- The end of a statement, behind the statement. -/
theorem spans_append_ending (h : c.seam.Spans trees c₁.seam)
    (hending : Phrase.ending.Lies c₁ [tree] c₂) : c.seam.Spans (trees ++ [tree]) c₂.seam := by
  rcases hending with hspans | ⟨rfl, hpoint⟩
  · exact h.append hspans
  · rw [hpoint]
    exact h.append_point .eos

/-- An atom spans as its token does. -/
theorem spans_atom {token : Tree} (h : c.seam.Spans [token] c₁.seam) :
    c.seam.Spans [.atom token] c₁.seam := by
  unfold Tree.atom
  split
  · exact (h.wrap _).expression
  · exact ((h.wrap _).wrap _).expression
  · exact ((h.wrap _).wrap _).expression
  · exact (h.wrap _).expression

/-- An operator of assignment spans as its sign does. -/
theorem spans_assignmentOperator {sign : Token} (h : c.seam.Spans [sign.leaf] c₁.seam) :
    c.seam.Spans [sign.assignmentOperator] c₁.seam := by
  unfold Token.assignmentOperator
  split
  · exact h
  · exact h.wrap _

end

/-- What is read for a part of a program lies where its tokens do. -/
theorem Reads.lies {progress : Progress} {phrase : Phrase} {c c₁ : Cursor} {trees : List Tree}
    (h : Reads progress phrase c trees c₁) (hphrase : phrase.hasTaken = true) :
    phrase.Lies c trees c₁ := by
  induction h with
  | oneItem _ _ ih => exact (ih (Phrase.hasTaken_of_isTaken hphrase)).spans hphrase
  | moreItems _ hcomma _ ihtree ihrest =>
    have htree := (ihtree (Phrase.hasTaken_of_isTaken hphrase)).spans hphrase
    exact htree.cons (hcomma.spans.cons (ihrest hphrase))
  | none => exact .inr ⟨rfl, rfl⟩
  | more _ _ _ _ ihtree ihrest =>
    have htree := (ihtree (Phrase.hasTaken_of_isTaken hphrase)).spans hphrase
    exact .inl (spans_append_optional htree (ihrest hphrase))
  | identifier hname => exact hname.spans.wrap _
  | memberName hname => exact (hname.spans.wrap _).wrap _
  | memberWord hword => exact hword.spans.wrap _
  | assignable _ ih => exact Spans.wrap (ih rfl) _
  | noAssignment _ _ ih => exact ih rfl
  | assignment _ hsign _ ihtarget ihvalue =>
    have hoperator := spans_assignmentOperator hsign.spans
    exact (Spans.cons (ihtarget rfl) (hoperator.cons (ihvalue rfl))).expression
  | operand _ ih => exact ih rfl
  | binary _ hsign _ ihleft ihright =>
    exact (Spans.cons (ihleft rfl) (hsign.spans.cons (ihright rfl))).expression
  | operations _ _ ih => exact ih rfl
  | noPower _ _ ih => exact ih rfl
  | power _ hsign _ ihbase ihexponent =>
    exact (Spans.cons (ihbase rfl) (hsign.spans.cons (ihexponent rfl))).expression
  | unsigned _ _ ih => exact ih rfl
  | signed hsign _ ih => exact (hsign.spans.cons (ih rfl)).expression
  | noStep _ _ ih => exact ih rfl
  | stepped _ hsign ih => exact (Spans.cons (ih rfl) hsign.spans).expression
  | subject _ ih => exact ih rfl
  | member _ hdot _ ihsubject ihname =>
    exact (Spans.cons (ihsubject rfl) (hdot.spans.cons (ihname rfl))).expression
  | index _ hleft _ hright ihsubject ihindex =>
    have hindex := hleft.spans.cons (Spans.cons (ihindex rfl) hright.spans)
    exact (Spans.cons (ihsubject rfl) hindex).expression
  | call _ _ ihsubject iharguments =>
    exact (Spans.cons (ihsubject rfl) (iharguments rfl)).expression
  | accesses _ _ ih => exact ih rfl
  | atom htoken => exact spans_atom htoken.spans
  | array hleft _ hright ih =>
    exact ((hleft.spans.around (seats_branch (ih rfl) _) hright.spans).branch _ _).expression
  | parenthesized hleft _ hright ih =>
    exact (hleft.spans.cons (Spans.cons (ih rfl) hright.spans)).expression
  | sequence _ ih => exact Spans.branch (ih rfl) _ _
  | argument _ ih => exact Spans.wrap (ih rfl) _
  | noArguments hleft hright => exact (hleft.spans.cons hright.spans).branch _ _
  | arguments hleft _ _ hright ih =>
    exact ((hleft.spans.cons (ih rfl)).append hright.spans).branch _ _
  | noElements => exact .inr ⟨rfl, rfl⟩
  | skippedElement hcomma _ ih => exact .inl (spans_append_optional hcomma.spans (ih rfl))
  | lastElement _ _ _ _ _ ih => exact .inl (Spans.wrap (ih rfl) _)
  | element _ _ _ _ hcomma _ ihvalue ihrest =>
    have hvalue := (Spans.wrap (ihvalue rfl) .arrayElement).cons hcomma.spans
    exact .inl (spans_append_optional hvalue (ihrest rfl))
  | endMark hsemicolon => exact .inl (hsemicolon.spans.wrap _)
  | noEndMark => exact .inr ⟨rfl, rfl⟩
  | bareDeclarator _ _ ih => exact Spans.wrap (ih rfl) _
  | declarator _ hsign _ ihname ihvalue =>
    exact (Spans.cons (ihname rfl) (hsign.spans.cons (ihvalue rfl))).branch _ _
  | variableStatement hmodifier _ _ ihdeclarators ihending =>
    have hlist := (hmodifier.spans.wrap .varModifier).cons (ihdeclarators rfl)
    exact (spans_append_ending (hlist.branch _ _) (ihending rfl)).branch _ _
  | emptyStatement hsemicolon => exact hsemicolon.spans.wrap _
  | expressionStatement _ _ ihsequence ihending =>
    exact (spans_append_ending (ihsequence rfl) (ihending rfl)).branch _ _
  | noValue => exact .inr ⟨rfl, rfl⟩
  | value _ _ _ _ _ ih => exact .inl (ih rfl)
  | returnStatement hkeyword _ _ ihvalue ihending =>
    have hvalue := spans_append_optional hkeyword.spans (ihvalue rfl)
    exact (spans_append_ending hvalue (ihending rfl)).branch _ _
  | parameter _ ih => exact Spans.wrap (ih rfl) _
  | parameterList _ ih => exact Spans.branch (ih rfl) _ _
  | noParameters => exact .inr ⟨rfl, rfl⟩
  | parameters _ _ ih => exact .inl (ih rfl)
  | function hkeyword _ hleft _ hright hopening _ hclosing ihname ihparameters ihelements =>
    have hhead := hkeyword.spans.cons (Spans.cons (ihname rfl) hleft.spans)
    have hbody := hopening.spans.around (seats_sourceElements (ihelements rfl)) hclosing.spans
    refine (hhead.around (seats_of_optional (ihparameters rfl)) (hright.spans.cons ?_)).branch _ _
    exact hbody.branch _ _
  | block hopening _ hclosing ih =>
    exact (hopening.spans.around (seats_branch (ih rfl) _) hclosing.spans).branch _ _
  | ifThen hkeyword hleft _ hright _ _ ihcondition ihconsequence =>
    have hrest := Spans.cons (ihcondition rfl) (hright.spans.cons (ihconsequence rfl))
    exact (hkeyword.spans.cons (hleft.spans.cons hrest)).branch _ _
  | ifThenElse hkeyword hleft _ hright _ hotherwise _ ihcondition ihconsequence ihalternative =>
    have helse := Spans.cons (ihconsequence rfl) (hotherwise.spans.cons (ihalternative rfl))
    have hrest := Spans.cons (ihcondition rfl) (hright.spans.cons helse)
    exact (hkeyword.spans.cons (hleft.spans.cons hrest)).branch _ _
  | loop hkeyword hleft _ hright _ ihcondition ihbody =>
    have hrest := Spans.cons (ihcondition rfl) (hright.spans.cons (ihbody rfl))
    exact (hkeyword.spans.cons (hleft.spans.cons hrest)).branch _ _
  | @statement c _ _ _ ih =>
    have hform := Phrase.isTaken_of_mem_statementForms (Phrase.ofFirst_mem c.kind?)
    exact ((ih (Phrase.hasTaken_of_isTaken hform)).spans hform).wrap _
  | sourceElement _ ih => exact Spans.wrap (ih rfl) _
  | sourceElements _ ih =>
    rcases ih rfl with hspans | ⟨rfl, rfl⟩
    · exact .inl (hspans.branch _ _)
    · exact .inr ⟨rfl, rfl⟩
  | program => trivial

/-- A whole program reaches to the end of the input. -/
theorem Reads.spans_program {c c₁ : Cursor} {tree : Tree}
    (h : Reads .done .program c [tree] c₁) : c.seam.Spans [tree] ⟨[], c₁.endOffset⟩ := by
  cases h with
  | @program _ _ elements helements hend =>
    have hlast : c₁.seam.Spans [c₁.endLeaf] ⟨[], c₁.endOffset⟩ := by
      unfold seam
      rw [hend]
      exact spans_leaf _ _ _ _ _
    rcases helements.lies rfl with hspans | ⟨rfl, hpoint⟩
    · exact (hspans.cons hlast).branch _ _
    · rw [List.cons.inj hpoint |>.1, ← start_seam]
      exact (hlast.cons_point .sourceElements).branch _ _

/-! ## Spans of source texts -/

/-- Tokens that tile a text follow one another to its end. -/
theorem Scan.Tiles.inOrder {offset : Nat} {tokens : List Token} (h : Tiles offset chars tokens) :
    InOrder offset (tokens.map Token.leaf ++
      [.leaf .endOfInput "" (.point (offset + Source.byteLength chars))])
      (offset + Source.byteLength chars) := by
  induction h with
  | gap => exact .cons (Nat.le_add_right _ _) le_rfl (.nil le_rfl)
  | @token offset gap rest token tokens _ _ htext hstart hstop _ ih =>
    have hsame : token.span.stop + Source.byteLength rest =
        offset + Source.byteLength (gap ++ token.text.toList ++ rest) := by
      simp only [Source.byteLength_append]
      omega
    rw [hsame] at ih
    refine .cons ?_ ?_ ih
    · change offset ≤ token.span.start
      omega
    · change token.span.start ≤ token.span.stop
      omega

open Source (IsBoundary)

namespace Seam

/-- The leaf behind and all leaves ahead are between characters. -/
def Bounded (chars : List Char) (p : Seam) : Prop :=
  IsBoundary chars p.previousEnd ∧
    ∀ leaf ∈ p.ahead, IsBoundary chars leaf.span.start ∧ IsBoundary chars leaf.span.stop

/-- What lies further on is between characters. -/
theorem Bounded.after {p : Seam} (h : p.Bounded chars) (count : Nat) :
    (p.after count).Bounded chars := by
  fun_induction Seam.after p count with
  | case1 => exact h
  | case2 => exact h
  | case3 leaf rest previousEnd count ih =>
    obtain ⟨hleaf, hrest⟩ := List.forall_mem_cons.mp h.2
    exact ih ⟨hleaf.2, hrest⟩

/-- A seam starts between characters. -/
theorem Bounded.start {p : Seam} (h : p.Bounded chars) : IsBoundary chars p.start := by
  obtain ⟨ahead, previousEnd⟩ := p
  cases ahead with
  | nil => exact h.1
  | cons leaf rest => exact (h.2 leaf List.mem_cons_self).1

end Seam

/-- A tree that fits where the leaves are in order and between characters has a text. -/
theorem Tree.Fits.exists_slice? {source : String} {tree : Tree} {p : Seam} (h : tree.Fits p)
    (hbounded : p.Bounded source.toList) : ∃ text, Source.slice? source tree.span = some text := by
  have hle : tree.span.start ≤ tree.span.stop := h.inOrder.bounds.1
  have hends : IsBoundary source.toList tree.span.start ∧
      IsBoundary source.toList tree.span.stop := by
    by_cases hleaves : tree.leaves = []
    · rcases h.bare hleaves with hspan | hspan <;> rw [hspan]
      · exact ⟨hbounded.1, hbounded.1⟩
      · exact ⟨hbounded.start, hbounded.start⟩
    · rw [h.filled hleaves]
      exact ⟨hbounded.start, (hbounded.after _).1⟩
  exact Source.exists_slice? hends.1 hends.2 hle

/-- No tree begins behind the last leaf. -/
theorem Tree.Stands.le {trees : List Tree} (h : sub.Stands before trees) :
    before ≤ (allLeaves trees).length := by
  induction h with
  | here => exact Nat.zero_le _
  | inside _ ih =>
    rw [allLeaves, leaves, List.length_append]
    omega
  | later _ ih =>
    rw [allLeaves, List.length_append]
    omega

/-- What stands in a node stands wherever the node does. -/
theorem Tree.Stands.within {before behind : Nat} {rule : Rule} {children trees : List Tree}
    {span : Span} (h : (Tree.node rule children span).Stands before trees)
    (hsub : sub.Stands behind children) :
    sub.Stands (before + behind) trees := by
  induction h with
  | here =>
    rw [Nat.zero_add]
    exact .inside hsub
  | inside _ ih => exact .inside ih
  | later _ ih =>
    rw [Nat.add_assoc]
    exact .later ih

/-- Everything in a program begins before its end does. -/
theorem Reads.before_lt {c c₁ : Cursor} {tree sub : Tree} (h : Reads .done .program c [tree] c₁)
    (hstands : sub.Stands before [tree]) :
    before < tree.leaves.length := by
  cases h with
  | @program _ _ elements _ _ =>
    rw [branch_eq] at hstands ⊢
    have hlength (span : Span) :
        (Tree.node .program [elements, c₁.endLeaf] span).leaves.length =
          elements.leaves.length + 1 := by
      rw [Tree.leaves, allLeaves, allLeaves_singleton, List.length_append]
      rfl
    rw [hlength]
    cases hstands with
    | here => exact Nat.succ_pos _
    | later hlater => cases hlater
    | inside hinside =>
      have hparts : sub.Stands before ([elements] ++ [c₁.endLeaf]) := hinside
      rcases hparts.append with hfirst | ⟨behind, rfl, hlast⟩
      · have hle := hfirst.le
        rw [allLeaves_singleton] at hle
        omega
      · rw [allLeaves_singleton]
        cases hlast with
        | here => exact Nat.lt_succ_self _
        | later hlater => cases hlater

/-- Where a source text is read, the tokens are in order and between characters. -/
theorem seam_ofSource (source : String) :
    (Cursor.ofSource source).seam.Orderly ∧
      (Cursor.ofSource source).seam.Bounded source.toList := by
  have htiles := Scan.tiles_scanFrom 0 source.toList
  have hend : (Cursor.ofSource source).endOffset = 0 + Source.byteLength source.toList :=
    Scan.endOffset_scanFrom 0 source.toList
  refine ⟨⟨(Cursor.ofSource source).endOffset, ?_⟩, ⟨[], source.toList, rfl, rfl⟩,
    fun leaf hleaf => ?_⟩
  · have hinOrder := htiles.inOrder
    rw [← hend] at hinOrder
    exact hinOrder
  · rcases List.mem_append.mp hleaf with htoken | hlast
    · obtain ⟨token, hmem, rfl⟩ := List.mem_map.mp htoken
      have hslice := htiles.slice? Source.byteLength_nil token hmem
      rw [List.nil_append, String.ofList_toList] at hslice
      exact (Source.slice?_eq_some_iff.mp hslice).isBoundary
    · obtain rfl := List.mem_singleton.mp hlast
      have hstop : IsBoundary source.toList (Cursor.ofSource source).endOffset :=
        ⟨source.toList, [], (List.append_nil _).symm, by rw [hend, Nat.zero_add]⟩
      exact ⟨hstop, hstop⟩

/-- The spans of a tree that is read from a source text, wherever in it a node or a leaf stands.
With leaves, it reaches exactly from the start of its first leaf to the end of its last one.
Without, it is empty and between the end of the leaf before it and the start of the leaf behind it.
The spans of its children are inside its own and follow one another, and its span begins and ends
between characters of the text. -/
theorem spans_of_parse {source : String} {tree sub : Tree} {before : Nat}
    (h : Tree.parse source = .ok tree) (hstands : sub.Stands before [tree]) :
    sub.leaves <+: tree.leaves.drop before ∧
    (∀ first last, sub.leaves.head? = some first → sub.leaves.getLast? = some last →
      sub.span = ⟨first.span.start, last.span.stop⟩) ∧
    (sub.leaves = [] → sub.span.start = sub.span.stop ∧
      (∀ leaf ∈ (tree.leaves.take before).getLast?, leaf.span.stop ≤ sub.span.start) ∧
      ∃ leaf ∈ (tree.leaves.drop before).head?, sub.span.stop ≤ leaf.span.start) ∧
    (∀ child ∈ sub.children,
      sub.span.start ≤ child.span.start ∧ child.span.stop ≤ sub.span.stop) ∧
    (sub.children.Pairwise fun first second => first.span.stop ≤ second.span.start) ∧
    ∃ text, Source.slice? source sub.span = some text := by
  obtain ⟨c, hreads⟩ := Tree.parse_eq_ok_iff.mp h
  obtain ⟨horderly, hbounded⟩ := seam_ofSource source
  have hfits := hreads.spans_program.fits horderly hstands
  have hleaves : (Cursor.ofSource source).seam.ahead = tree.leaves :=
    hreads.leaves_program.1.symm
  generalize (Cursor.ofSource source).seam = p at hfits horderly hbounded hleaves
  have hahead : (p.after before).ahead = tree.leaves.drop before := by rw [ahead_after, hleaves]
  have hleads := hstands.leaves_prefix
  rw [allLeaves_singleton] at hleads
  refine ⟨hleads, ?_, ?_, hfits.inOrder.bounds.2, hfits.inOrder.pairwise,
    hfits.exists_slice? (hbounded.after before)⟩
  · intro first last hfirst hlast
    obtain ⟨more, hmore⟩ := hleads
    have hstart : (p.after before).start = first.span.start := by
      rw [Seam.start, hahead, ← hmore, List.head?_append, hfirst]
      rfl
    have hstop : ((p.after before).after sub.leaves.length).previousEnd = last.span.stop := by
      rw [previousEnd_after (p.after before), hahead, ← hmore, List.take_left, hlast]
      rfl
    have hne : sub.leaves ≠ [] := List.ne_nil_of_mem (List.mem_of_head? hfirst)
    rw [hfits.filled hne, hstart, hstop]
  · intro hnil
    have hle := (horderly.after before).previousEnd_le_start
    have hbetween : sub.span.start = sub.span.stop ∧
        (p.after before).previousEnd ≤ sub.span.start ∧ sub.span.stop ≤ (p.after before).start := by
      rcases hfits.bare hnil with hspan | hspan <;> rw [hspan]
      · exact ⟨rfl, le_rfl, hle⟩
      · exact ⟨rfl, hle, le_rfl⟩
    obtain ⟨hempty, hbehind, hnext⟩ := hbetween
    refine ⟨hempty, fun leaf hleaf => ?_, ?_⟩
    · rw [previousEnd_after, hleaves, hleaf] at hbehind
      exact hbehind
    · have hlt := hreads.before_lt hstands
      have hhead : (tree.leaves.drop before).head? = some tree.leaves[before] := by
        rw [List.head?_drop, List.getElem?_eq_getElem hlt]
      rw [Seam.start, hahead, hhead] at hnext
      exact ⟨_, hhead, hnext⟩

/-- The end mark that is left out behind the step is at its end, and not at the parenthesis on the
next line. -/
theorem spans_of_parse_broken :
    ∃ tree sequence endSpan span, Tree.parse "return\nc++\n(d)" = .ok tree ∧
      (Tree.node .expressionStatement [sequence, .node .eos [] endSpan] span).Stands 1 [tree] ∧
      (Tree.node .eos [] endSpan).Stands 3 [tree] ∧ span = ⟨7, 10⟩ ∧ endSpan = ⟨10, 10⟩ := by
  obtain ⟨tree, sequence, endSpan, span, hparse, hstands, hahead⟩ := parse_broken
  have hsize : sequence.leaves.length = 2 := by
    have hlength := congrArg List.length hahead
    rw [List.length_drop] at hlength
    change 5 - sequence.leaves.length = 3 at hlength
    omega
  have hend : (Tree.node .eos [] endSpan).Stands (1 + (sequence.leaves.length + 0)) [tree] :=
    hstands.within (.later .here)
  rw [hsize] at hend
  have hleaves : tree.leaves =
      brokenTokens.map Token.leaf ++ [.leaf .endOfInput "" (.point 14)] := by
    obtain ⟨c, hreads⟩ := Tree.parse_eq_ok_iff.mp hparse
    rw [hreads.leaves_program.1, ofSource_broken]
  obtain ⟨hleads, hspan, -, hchildren, -⟩ := spans_of_parse hparse hstands
  obtain ⟨-, -, hpoint, -⟩ := spans_of_parse hparse hend
  let name : Token := ⟨.name, "c", ⟨7, 8⟩, true⟩
  let sign : Token := ⟨.mark .increment, "++", ⟨8, 10⟩, false⟩
  have hsequence : (Tree.node .expressionStatement [sequence, .node .eos [] endSpan] span).leaves =
      [name.leaf, sign.leaf] := by
    have htake := List.prefix_iff_eq_take.mp hleads
    simp only [Tree.leaves, Tree.allLeaves, List.append_nil, hsize, hleaves] at htake ⊢
    exact htake
  obtain rfl : span = ⟨7, 10⟩ := by
    refine hspan name.leaf sign.leaf ?_ ?_ <;> rw [hsequence]
    · rfl
    · rfl
  obtain ⟨hempty, hbehind, -⟩ := hpoint rfl
  have hstart : 10 ≤ endSpan.start := by
    refine hbehind sign.leaf ?_
    rw [hleaves]
    rfl
  have hstop : endSpan.stop ≤ 10 :=
    (hchildren (.node .eos [] endSpan) (List.mem_cons_of_mem _ List.mem_cons_self)).2
  refine ⟨tree, sequence, endSpan, _, hparse, hstands, hend, rfl, ?_⟩
  change endSpan.start = endSpan.stop at hempty
  obtain ⟨start, stop⟩ := endSpan
  rw [Span.mk.injEq]
  dsimp only at hempty hstart hstop
  omega

end TreeScript
