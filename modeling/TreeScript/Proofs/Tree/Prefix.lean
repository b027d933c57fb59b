import TreeScript.Proofs.Source.Coordinates
import TreeScript.Proofs.Token.Tiling
import TreeScript.Proofs.Tree.Completion
import TreeScript.Proofs.Tree.Pursuit

/-!
# Errors are reported at the first bad token

A source text that is not read is refused at the earliest token that nothing can make up for. The
tokens before it are the beginning of a program: completing the goals that they have left open
makes one. The tokens up to and with it are the beginning of none, since a reader looks no further
than the token that it refuses.

The line and column of an error tell which token it is, for no two tokens begin at one place.
-/

namespace TreeScript

open Agenda

/-! ## Places of tokens -/

namespace Scan

/-- The tokens of a text and its end begin behind longer and longer beginnings of it. -/
theorem Tiles.exists_beginnings {offset : Nat} {chars : List Char} {tokens : List Token}
    (h : Tiles offset chars tokens) :
    ∃ beginnings : List (List Char),
      tokens.map (·.span.start) ++ [offset + Source.byteLength chars] =
          beginnings.map (offset + Source.byteLength ·) ∧
        (∀ beginning ∈ beginnings, beginning <+: chars) ∧
        beginnings.Pairwise fun first second => ∃ added, added ≠ [] ∧ second = first ++ added := by
  induction h with
  | @gap offset gap _ =>
    exact ⟨[gap], rfl, by simp, List.pairwise_singleton _ _⟩
  | @token offset gap rest token tokens _ _ htext hstart hstop _ ih =>
    obtain ⟨beginnings, hstarts, hprefixes, hpairs⟩ := ih
    have hne : token.text.toList ≠ [] := fun hnil => htext (String.toList_eq_nil_iff.mp hnil)
    -- Behind the first gap come the later beginnings, each with the first token in front.
    refine ⟨gap :: beginnings.map (gap ++ token.text.toList ++ ·), ?_, ?_, ?_⟩
    · have hend : offset + Source.byteLength (gap ++ token.text.toList ++ rest) =
          token.span.stop + Source.byteLength rest := by
        rw [hstop, hstart, Source.byteLength_append, Source.byteLength_append]
        omega
      rw [List.map_cons, List.cons_append, hend, hstarts, hstart, List.map_cons, List.map_map]
      congr 1
      apply List.map_congr_left
      intro beginning _
      rw [hstop, hstart, Function.comp_apply, Source.byteLength_append, Source.byteLength_append]
      omega
    · refine List.forall_mem_cons.mpr ⟨?_, List.forall_mem_map.mpr ?_⟩
      · rw [List.append_assoc]
        exact List.prefix_append _ _
      · exact fun beginning hmem => (List.prefix_append_right_inj _).mpr (hprefixes beginning hmem)
    · refine .cons (List.forall_mem_map.mpr fun beginning _ => ?_) (hpairs.map _ ?_)
      · exact ⟨token.text.toList ++ beginning, List.append_ne_nil_of_left_ne_nil hne _,
          List.append_assoc _ _ _⟩
      · rintro first second ⟨added, hadded, rfl⟩
        exact ⟨added, hadded, (List.append_assoc _ _ _).symm⟩

end Scan

/-- No two tokens of a source text begin at one place, and none where the text ends. -/
theorem TokenStream.nodup_positions (source : String) :
    ((TokenStream.ofSource source).starts.map (Source.position source)).Nodup := by
  have htiles : Scan.Tiles 0 source.toList (TokenStream.ofSource source).tokens :=
    Scan.tiles_scanFrom 0 source.toList
  obtain ⟨beginnings, hstarts, hprefixes, hpairs⟩ := htiles.exists_beginnings
  have hend : (TokenStream.ofSource source).endOffset = 0 + Source.byteLength source.toList :=
    Scan.endOffset_scanFrom 0 source.toList
  have hpositions : (TokenStream.ofSource source).starts.map (Source.position source) =
      beginnings.map Source.positionAfter := by
    rw [TokenStream.starts, hend, hstarts, List.map_map]
    apply List.map_congr_left
    intro beginning hmem
    obtain ⟨after, hafter⟩ := hprefixes beginning hmem
    rw [Function.comp_apply, Nat.zero_add]
    exact Source.position_append hafter.symm
  rw [hpositions]
  apply hpairs.map
  rintro first second ⟨added, hadded, rfl⟩ hsame
  exact hadded (Source.eq_nil_of_positionAfter hsame.symm)

/-! ## The first bad token -/

/-- The tokens before a refused one are the beginning of a source text that is read. -/
theorem exists_completed {source : String} {taken : List TokenView} {view : TokenView}
    {expected : Expectation}
    (h : Refuses (TokenStream.ofSource source).views taken view expected) :
    ∃ completed tree, Tree.parse completed = .ok tree ∧
      taken <+: (TokenStream.ofSource completed).views := by
  obtain ⟨goals, rest, hviews, hleads, -⟩ := h
  obtain ⟨seen, arrived, hseen, hvalid, harrive, -⟩ := hleads.exists_arrival
  have htaken : taken = seen := List.append_cancel_right (hviews.symm.trans hseen)
  subst htaken
  -- The tokens that were taken, as the source has them.
  let tokens := (TokenStream.ofSource source).tokens.take taken.length
  have htokens : tokens.map Token.view = taken := by
    have hprefix : taken <+: (TokenStream.ofSource source).views := ⟨_, hviews.symm⟩
    rcases List.prefix_concat_iff.mp hprefix with hwhole | hprefix
    · rw [TokenStream.views, ← hwhole] at hviews
      cases List.self_eq_append_right.mp hviews
    · rw [List.map_take]
      exact (List.prefix_iff_eq_take.mp hprefix).symm
  have hspells : ∀ token ∈ tokens ++ Goal.completions arrived,
      token.kind ≠ .invalid ∧ Spells token.text token.kind := by
    intro token htoken
    rcases List.mem_append.mp htoken with hbefore | hadded
    · have hkind : token.kind ≠ .invalid := by
        have hview := hvalid token.view (htokens ▸ List.mem_map_of_mem hbefore)
        exact bne_iff_ne.mp hview
      exact ⟨hkind, Scan.spells_of_mem_scanFrom 0 _ token (List.mem_of_mem_take hbefore) hkind⟩
    · obtain ⟨goal, -, hmem⟩ := List.mem_flatMap.mp hadded
      exact Goal.spells_of_mem_completion token hmem
  let completed := String.ofList (Scan.separated (tokens ++ Goal.completions arrived))
  have hcompleted : (TokenStream.ofSource completed).views =
      taken ++ ((Goal.completions arrived).map Token.view ++ [⟨none, "", false⟩]) := by
    have hscanned := Scan.views_separated hspells 0
    rw [List.map_append, htokens, List.append_assoc] at hscanned
    rw [TokenStream.ofSource, String.toList_ofList]
    exact hscanned
  have haccepts : Accepts (TokenStream.ofSource completed).views := by
    rw [hcompleted]
    exact accepts_completions harrive rfl
  obtain ⟨tree, hparse⟩ := exists_parse_of_accepts haccepts
  refine ⟨completed, tree, hparse, ?_⟩
  rw [hcompleted]
  exact List.prefix_append _ _

/-- A source text that is not read is reported at the place of one of its tokens or of its end, and
of no other. What stands before that place is the beginning of a source text that is read; together
with what stands there it is the beginning of none. -/
theorem parse_refused_at_first_bad_token {source : String} {error : SyntaxError}
    (h : Tree.parse source = .error error) :
    let stream := TokenStream.ofSource source
    ∃ bad,
      (∀ index, stream.starts[index]?.map (Source.position source) = some error.position ↔
        index = bad) ∧
      (∃ completed tree, Tree.parse completed = .ok tree ∧
        stream.views.take bad <+: (TokenStream.ofSource completed).views) ∧
      ∀ other, stream.views.take (bad + 1) <+: (TokenStream.ofSource other).views →
        ∃ refusal, Tree.parse other = .error refusal := by
  intro stream
  obtain ⟨taken, view, hrefuses, -, hplace⟩ := refuses_of_parse h
  obtain ⟨rest, hviews⟩ : ∃ rest, stream.views = taken ++ [view] ++ rest := by
    obtain ⟨goals, rest, hviews, -, -⟩ := hrefuses
    exact ⟨rest, by rw [List.append_assoc]; exact hviews⟩
  have htaken : stream.views.take taken.length = taken := by
    rw [hviews, List.append_assoc, List.take_left]
  have hbad : stream.views.take (taken.length + 1) = taken ++ [view] := by
    rw [hviews]
    exact List.take_left' (by simp)
  refine ⟨taken.length, fun index => ⟨fun hindex => ?_, ?_⟩, ?_, fun other hother => ?_⟩
  · rw [← List.getElem?_map] at hindex hplace
    obtain ⟨hlength, -⟩ := List.getElem?_eq_some_iff.mp hindex
    exact (List.getElem?_inj hlength (TokenStream.nodup_positions source)).mp
      (hindex.trans hplace.symm)
  · rintro rfl
    exact hplace
  · rw [htaken]
    exact exists_completed hrefuses
  · rw [hbad] at hother
    obtain ⟨later, hlater⟩ := hother
    rw [List.append_assoc] at hlater
    have hrefusesOther := hrefuses.before later
    apply exists_error_of_not_accepts
    rw [← hlater]
    exact hrefusesOther.not_accepts

/-- Two names in a row. -/
theorem parse_refused_at_first_bad_token_names :
    let first : TokenView := ⟨some .name, "a", false⟩
    let second : TokenView := ⟨some .name, "b", false⟩
    Tree.parse "a b" = .error ⟨.statementEnd, some "b", ⟨1, 3⟩⟩ ∧
      (∃ completed tree, Tree.parse completed = .ok tree ∧
        [first] <+: (TokenStream.ofSource completed).views) ∧
      ∀ other, [first, second] <+: (TokenStream.ofSource other).views →
        ∃ refusal, Tree.parse other = .error refusal := by
  intro first second
  have hstream : TokenStream.ofSource "a b" =
      ⟨[⟨.name, "a", ⟨0, 1⟩, false⟩, ⟨.name, "b", ⟨2, 3⟩, false⟩], 3, false⟩ := by
    have hfirst : Scan.lexeme 'a' " b".toList = ⟨.name, "a".toList, " b".toList⟩ := by decide
    have hsecond : Scan.lexeme 'b' [] = ⟨.name, "b".toList, []⟩ := by decide
    rw [TokenStream.ofSource, Scan.scanFrom_of_lexeme rfl hfirst,
      Scan.scanFrom_of_lexeme rfl hsecond, Scan.scanFrom_nil]
    rfl
  have hrefuses : Refuses (TokenStream.ofSource "a b").views [first] second .statementEnd := by
    rw [hstream]
    refine ⟨[.statementEnd], [⟨none, "", false⟩], rfl, ?_, rfl⟩
    exact leads_after 40 ⟨[], [first, second, ⟨none, "", false⟩]⟩
  have hparse : Tree.parse "a b" = .error ⟨.statementEnd, some "b", ⟨1, 3⟩⟩ := by
    obtain ⟨error, hparse⟩ := exists_error_of_not_accepts hrefuses.not_accepts
    obtain ⟨taken, view, hrefused, hfound, hplace⟩ := refuses_of_parse hparse
    obtain ⟨rfl, rfl, hexpected⟩ := hrefuses.unique hrefused
    rw [hstream] at hplace
    obtain ⟨expected, found, position⟩ := error
    cases hexpected
    cases hfound
    cases hplace
    exact hparse
  obtain ⟨bad, hplace, hcompleted, hrefused⟩ := parse_refused_at_first_bad_token hparse
  rw [hstream] at hplace hcompleted hrefused
  obtain rfl : 1 = bad := (hplace 1).mp rfl
  exact ⟨hparse, hcompleted, hrefused⟩

end TreeScript
