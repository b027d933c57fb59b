import TreeScript.Proofs.Lowering.Placement
import TreeScript.Proofs.Surface.Lowered
import TreeScript.Proofs.Surface.Reading
import TreeScript.Proofs.Surface.Support
import TreeScript.Proofs.Tree.Soundness

/-!
# What is lowered, and why the rest is refused

The trees of the grammar are, but for their spans, the trees of scripts. Such a tree is lowered
exactly if nothing in the script stands in the way, and then to what the script means. If it is
rejected, then not because it is malformed: the reason is a shape or a literal that is not
supported, or a repeated parameter.
-/

namespace TreeScript

/-- A refusal does not depend on the place. -/
theorem CompileError.refuses_unplaced (error : CompileError) :
    error.unplaced.refuses = error.refuses := by
  rcases error with _ | ⟨rule, cause, span⟩ | _
  · rfl
  · cases cause <;> rfl
  · rfl

/-- A rejection that a tree of the grammar may meet with, spelled out. -/
theorem CompileError.refuses_iff (error : CompileError) :
    error.refuses = true ↔
      (∃ rule children cause span, error = .unsupported rule children cause span) ∨
        (∃ text span, error = .unimplementedLiteral text span) ∨
          ∃ rule name span, error = .malformed rule (.duplicateParameter name) span := by
  constructor
  · intro h
    rcases error with ⟨rule, children, cause, span⟩ | ⟨rule, cause, span⟩ | ⟨text, span⟩
    · exact .inl ⟨rule, children, cause, span, rfl⟩
    · cases cause with
      | duplicateParameter name => exact .inr (.inr ⟨rule, name, span, rfl⟩)
      | _ => cases h
    · exact .inr (.inl ⟨text, span, rfl⟩)
  · rintro (⟨rule, children, cause, span, rfl⟩ | ⟨text, span, rfl⟩ | ⟨rule, name, span, rfl⟩)
    all_goals rfl

/-- A check accords with a result if it does so without its span. -/
theorem Accords.of_unplaced {α : Type} {check : Except CompileError α} {outcome : Option α}
    (h : Accords (Unplaced check) outcome) : Accords check outcome := by
  cases outcome with
  | none =>
    obtain ⟨error, herror, hrefuses⟩ := h
    cases check with
    | error original =>
      obtain rfl : original.unplaced = error := Except.error.inj herror
      exact ⟨original, rfl, original.refuses_unplaced ▸ hrefuses⟩
    | ok result => cases herror
  | some result =>
    cases check with
    | error original => cases h
    | ok other => exact h

namespace Surface

/-- Where a tree without its spans is that of a script, it is lowered to what the script means. -/
theorem accords_ofTree {script : Script} {tree : Tree} (h : tree.withoutSpans = script.tree) :
    Accords (Program.ofTree tree) script.lower? := by
  refine Accords.of_unplaced ?_
  rw [← Program.ofTree_withoutSpans, h]
  exact script.accords_ofTree

/-- The tree of a program is that of a script. -/
theorem exists_script {omits : Bool} {tree : Tree} (h : Produces omits .program [tree]) :
    ∃ script : Script, tree.withoutSpans = script.tree :=
  exists_of_one (encodes_of_produces h)

/-- A tree of the grammar is, but for its spans, the tree of a script. It can be lowered exactly
if the script holds nothing that cannot be, and its program is the one that the script means. -/
theorem ofTree_iff_meaning :
    (∀ (omits : Bool) (tree : Tree), Produces omits .program [tree] →
      ∃ script : Script, tree.withoutSpans = script.tree) ∧
    ∀ (script : Script) (tree : Tree), tree.withoutSpans = script.tree →
      ((∃ program, Program.ofTree tree = .ok program) ↔ script.obstacles = []) ∧
      ∀ program, Program.ofTree tree = .ok program ↔ script.lower? = some program := by
  refine ⟨fun omits tree h => exists_script h, ?_⟩
  intro script tree h
  have hprogram : ∀ program, Program.ofTree tree = .ok program ↔ script.lower? = some program := by
    have haccords := accords_ofTree h
    intro program
    cases hlower : script.lower? with
    | none =>
      rw [hlower] at haccords
      obtain ⟨error, herror, -⟩ := haccords
      simp [herror]
    | some meaning =>
      rw [hlower] at haccords
      have hmeaning : Program.ofTree tree = .ok meaning := haccords
      simp [hmeaning]
  refine ⟨?_, hprogram⟩
  rw [← script.isSome_lower?_iff, Option.isSome_iff_exists]
  exact exists_congr hprogram

/-- The script of a conditional: `if ( a ) b = c || d && e ; else ;`. -/
def choiceScript : Script :=
  let both := Expression.binary (.name "d") (.known .both) (.name "e")
  let either := Expression.binary (.name "c") (.known .either) both
  let consequence := Statement.expression (.mk (.assign (.name "b") either) []) .mark
  ⟨[.ifThenElse (.mk (.name "a") []) consequence .empty]⟩

/-- The script of a function with a repeated parameter: `function f ( a , a ) { }`. -/
def repeatedScript : Script := ⟨[.function "f" ["a", "a"] []]⟩

/-- A numeral with one digit, and an exponent without a sign. -/
def powerOfTen (exponent : String) (h : (DigitRun.ofFront exponent.toList).chars ≠ []) :
    WrittenNumber :=
  ⟨.ofFront ['1'], none, some ⟨'e', .absent, .ofFront exponent.toList, rfl, h⟩, .inl (by decide)⟩

/-- The numeral `0.5`. -/
def half : WrittenNumber := ⟨.ofFront ['0'], some (.ofFront ['5']), none, .inl (by decide)⟩

/-- The script of a number for each width: `7 ; 2147483648 ; 0.5 ; 1e39 ;`. -/
def widthScript : Script :=
  let whole (text : String) (h : (DigitRun.ofFront text.toList).chars ≠ []) : WrittenNumber :=
    ⟨.ofFront text.toList, none, none, .inl h⟩
  let numbers := [whole "7" (by decide), whole "2147483648" (by decide), half,
    powerOfTen "39" (by decide)]
  ⟨numbers.map fun number => .expression (.mk (.constant (.number number)) []) .mark⟩

/-- The script of a number that no width takes: `1e309 ;`. -/
def boundlessScript : Script :=
  ⟨[.expression (.mk (.constant (.number (powerOfTen "309" (by decide)))) []) .mark]⟩

/-- An `if` and an `else` with operators of two levels. -/
theorem ofTree_iff_meaning_choice :
    (∃ script : Script, Tree.choice.withoutSpans = script.tree) ∧
      Program.ofTree Tree.choice = .ok ⟨[.ifThenElse (.getVariable "a")
        [.setVariable "b" (.binary .either (.getVariable "c")
          (.binary .both (.getVariable "d") (.getVariable "e"))) .unconstrained false] []]⟩ ∧
      Program.ofTree widthScript.tree = .ok ⟨[.literal (.int 7), .literal (.long 2147483648),
        .literal (.float 0.5), .literal (.double 1e39)]⟩ ∧
      (¬ ∃ program, Program.ofTree boundlessScript.tree = .ok program) ∧
      ¬ ∃ program, Program.ofTree repeatedScript.tree = .ok program := by
  obtain ⟨hscripts, hmeaning⟩ := ofTree_iff_meaning
  refine ⟨hscripts false Tree.choice Tree.produces_choice, ?_, ?_, ?_, ?_⟩
  · exact ((hmeaning choiceScript Tree.choice rfl).2 _).mpr rfl
  · refine ((hmeaning widthScript widthScript.tree rfl).2 _).mpr ?_
    have hsingle : numberLiteral? half = some (.float 0.5) := by
      rw [numberLiteral?, if_neg (by decide), if_neg (by decide), floating?,
        if_pos (by decide +kernel)]
      rfl
    have hdouble : numberLiteral? (powerOfTen "39" (by decide)) = some (.double 1e39) := by
      rw [numberLiteral?, if_neg (by decide), if_neg (by decide), floating?,
        if_neg (by decide +kernel), if_pos (by decide +kernel)]
      rfl
    simp only [widthScript, List.map_cons, List.map_nil, Script.lower?, lowerStatements?,
      Statement.lower?, Sequence.lower?, Expression.lower?, Constant.value?, hsingle, hdouble]
    rfl
  · exact (hmeaning boundlessScript boundlessScript.tree rfl).1.not.mpr (by decide +kernel)
  · exact (hmeaning repeatedScript repeatedScript.tree rfl).1.not.mpr (by decide)

end Surface

/-- What is read from a source text is never found malformed when it is lowered, but for repeated
parameters. All other rejections are for shapes and literals that are not supported. -/
theorem rejected_of_parse {source : String} {tree : Tree} {error : CompileError}
    (hparse : Tree.parse source = .ok tree) (herror : Program.ofTree tree = .error error) :
    (∃ rule children cause span, error = .unsupported rule children cause span) ∨
      (∃ text span, error = .unimplementedLiteral text span) ∨
        ∃ rule name span, error = .malformed rule (.duplicateParameter name) span := by
  obtain ⟨c, hreads⟩ := Tree.parse_eq_ok_iff.mp hparse
  have hproduces := (hreads.produces (Cursor.isSpelled_ofSource source)).2
  obtain ⟨script, hscript⟩ := Surface.exists_script hproduces
  have haccords := Surface.accords_ofTree hscript
  rw [← CompileError.refuses_iff]
  cases hlower : script.lower? with
  | none =>
    rw [hlower] at haccords
    obtain ⟨other, hother, hrefuses⟩ := haccords
    obtain rfl := Except.error.inj (herror.symm.trans hother)
    exact hrefuses
  | some program =>
    rw [hlower] at haccords
    cases herror.symm.trans haccords

namespace Surface

/-- The script with a repeated parameter has a tree of the grammar. -/
theorem produces_repeatedScript : Produces false .program [repeatedScript.tree] := by
  have hname (text : String) (h : Spells text .name) :
      Produces false .identifier [identifier text] :=
    .identifier (.leaf rfl (by decide) h _)
  have ha := hname "a" (Scan.spells_iff.mpr ⟨'a', [], rfl, rfl, rfl⟩)
  have hf := hname "f" (Scan.spells_iff.mpr ⟨'f', [], rfl, rfl, rfl⟩)
  have hparameter : Produces false .parameter [node .formalParameterArg [assignable "a"]] :=
    .parameter (.assignable ha)
  have hfunction : Phrase.function ∈ Phrase.statementForms := by decide
  refine .program (.sourceElements (.more (.sourceElement (.statement hfunction ?_)) .none))
  exact .function (Tree.isToken_word .functionWord rfl) hf (Tree.isToken_mark .openParen rfl)
    (.present (.parameterList
      (.moreItems hparameter (Tree.isToken_mark .comma rfl) (.oneItem hparameter))))
    (Tree.isToken_mark .closeParen rfl) (Tree.isToken_mark .openBrace rfl)
    (.sourceElements .none) (Tree.isToken_mark .closeBrace rfl)

end Surface

/-- A repeated parameter is refused. -/
theorem rejected_of_parse_repeated :
    ∃ tree error, Tree.parse "function f ( a , a ) \x7b \x7d" = .ok tree ∧
      Program.ofTree tree = .error error ∧
      ((∃ rule children cause span, error = .unsupported rule children cause span) ∨
        (∃ text span, error = .unimplementedLiteral text span) ∨
          ∃ rule name span, error = .malformed rule (.duplicateParameter name) span) := by
  obtain ⟨tree, c, hreads, hsame⟩ := Surface.produces_repeatedScript.exists_reads
  have hparse := Tree.parse_eq_ok_iff.mpr ⟨c, hreads⟩
  have hscript : tree.withoutSpans = Surface.repeatedScript.tree := hsame.trans rfl
  have hrefused : Accords (Program.ofTree tree) none := Surface.accords_ofTree hscript
  obtain ⟨error, herror, -⟩ := hrefused
  exact ⟨tree, error, hparse, herror, rejected_of_parse hparse herror⟩

end TreeScript
