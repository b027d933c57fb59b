import TreeScript.Proofs.Lowering.Restoration
import TreeScript.Proofs.Tree.Solid

/-!
# Rejections point at parts with leaves

A rejection carries the span of the node at fault. Of a node without leaves, an end mark that is
left out or an empty list, lowering asks at most that it is there and never finds fault with it. So
every rejection of a tree of the grammar points at a part of it that has a leaf.
-/

namespace TreeScript

namespace Lowering

variable {α : Type} {blamed : Tree → Prop}

/-- Whatever the state, a step that fails points at one of the trees that may be at fault. -/
theorem Built.pointsAt {expected : Mode} {step twin : Lowering α}
    {post : α → List Operation → Prop} (h : Built blamed expected step twin post)
    (state : LoweringState) : FailsOnly (·.PointsAt blamed) (step state).1 := by
  induction h generalizing state with
  | pure _ => exact .ok _
  | throw hfaults => exact .error hfaults.2
  | @bind _ _ _ step _ _ _ _ _ hstep _ ih ihnext =>
    rw [bind_apply]
    rcases hrun : step state with ⟨cause | result, after⟩
    · exact .error (ih state cause (congrArg Prod.fst hrun))
    · obtain ⟨appended, hpost⟩ := hstep.exists_post (congrArg Prod.fst hrun)
      exact ihnext result appended hpost after
  | weaken _ _ ih => exact ih state
  | guardMode _ herror _ ih =>
    rw [guardMode_apply]
    split
    · exact .error herror
    · exact ih state
  | @emit _ node operation hnode =>
    rcases state with ⟨_ | ⟨sink, outer⟩, modes⟩
    · exact .error ⟨node, hnode, rfl⟩
    · exact .ok ()
  | inMode _ ih => exact ih _
  | @collect _ step _ _ kind node hstep ih =>
    obtain ⟨hmodes, hrest⟩ := hstep.meets { state with sinks := state.sinks.push kind }
    rcases hrun : step { state with sinks := state.sinks.push kind } with ⟨cause | _, sinks, modes⟩
    · rw [collect_of_error hrun]
      exact .error (ih _ cause (congrArg Prod.fst hrun))
    · rw [hrun] at hmodes hrest
      obtain ⟨appended, -, hsinks⟩ := hrest
      dsimp only at hmodes hsinks
      subst hmodes hsinks
      rw [collect_of_ok hrun]
      exact .ok appended

/-- A rejection of a tree of the grammar points at a part of it that has a leaf. -/
theorem pointsAt_of_produces {root : Tree} {omits : Bool} {error : CompileError}
    (hroot : Produces omits .program [root]) (h : Program.ofTree root = .error error) :
    error.PointsAt root.Firm := by
  cases hroot with
  | @program elements endSpan span helements =>
    have hvisits : FailsOnly
        (·.PointsAt (Tree.node .program [elements, .leaf .endOfInput "" endSpan] span).Firm)
        (visit elements opened).1 := by
      rcases helements.holds rfl with hsolid | ⟨elementsSpan, hbare⟩
      · refine (visit_built (Tree.heeded_firm _) ⟨⟨0, .inside .here⟩, ?_⟩).pointsAt opened
        exact hsolid elements List.mem_cons_self
      · cases hbare
        exact (visit_bare elementsSpan (.inl rfl)).pointsAt opened
    change (lowerProgram _ initial).1 = _ at h
    rw [lowerProgram_node rfl] at h
    rcases hvisit : visit elements opened with ⟨cause | result, after⟩
    · simp only [hvisit, Except.error.injEq] at h
      subst h
      exact hvisits cause (congrArg Prod.fst hvisit)
    · simp [hvisit] at h

end Lowering

end TreeScript
