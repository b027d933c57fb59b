import Mathlib.Data.List.Basic
import TreeScript.Proofs.Operation.Headings
import TreeScript.Proofs.Operation.Parts

/-!
# Outlines tell programs apart

An outline gives the structure of a program by the indentation and the order of its lines alone. The
lines of an operation end where a line follows that is no deeper than its first one and is not the
mark of a branch. So an operation can be read off the lines from its first one on, whatever follows,
and two programs with plain labels and the same outline are the same.
-/

namespace TreeScript

namespace Operation

/-! ## The lines of an operation -/

/-- The operations that are shown right below an operation's first line. -/
def inner : Operation → List Operation
  | function _ _ body | block body => body
  | operation => operation.operands

/-- The bodies that are shown below a mark. -/
def branches : Operation → List (List Operation)
  | ifThen _ consequence => [consequence]
  | ifThenElse _ consequence alternative => [consequence, alternative]
  | _ => []

/-- The marks of the branches of a conditional. -/
def branchMarks : List String := ["Then", "Else"]

/-- The lines of bodies, each below its mark. -/
def marked (depth : Nat) : List String → List (List Operation) → List String
  | mark :: marks, body :: bodies =>
    line depth mark :: (outlineAll (depth + 1) body ++ marked depth marks bodies)
  | _, _ => []

/-- An outline is a heading with the parts and branches below it. -/
theorem outline_eq (depth : Nat) (operation : Operation) :
    outline depth operation = line depth operation.label.heading ::
      (outlineAll (depth + 1) operation.inner ++ marked depth branchMarks operation.branches) := by
  have hstring (text : String) : toString text = text := rfl
  cases operation <;> rw [outline] <;>
    simp only [label, Label.heading, Label.word, Label.detail, Label.manner, hstring,
      ← String.append_assoc, String.reduceAppend, inner, operands, branches, marked, branchMarks,
      outlineAll, List.append_nil, List.cons_append, List.append_assoc]

/-- The operation with a label and with the given operations below it. -/
def assemble? : Label → List Operation → List (List Operation) → Option Operation
  | .literal value, _, _ => some (.literal value)
  | .getVariable name, _, _ => some (.getVariable name)
  | .setVariable name policy declaration, [value], _ =>
    some (.setVariable name value policy declaration)
  | .getMember member, [object], _ => some (.getMember object member)
  | .setMember member, [object, value], _ => some (.setMember object member value)
  | .getIndex, [object, index], _ => some (.getIndex object index)
  | .setIndex, [object, index, value], _ => some (.setIndex object index value)
  | .call _, callee :: arguments, _ => some (.call callee arguments)
  | .createList _, elements, _ => some (.createList elements)
  | .binary operator, [left, right], _ => some (.binary operator left right)
  | .unary operator, [operand], _ => some (.unary operator operand)
  | .stackPush, [inner], _ => some (.stackPush inner)
  | .stackPop, [inner], _ => some (.stackPop inner)
  | .giveBack, [value], _ => some (.giveBack value)
  | .function name parameters, body, _ => some (.function name parameters body)
  | .conditional, [condition], [consequence] => some (.ifThen condition consequence)
  | .conditional, [condition], [consequence, alternative] =>
    some (.ifThenElse condition consequence alternative)
  | .block, body, _ => some (.block body)
  | _, _, _ => none

/-- An operation is put together from its parts. -/
theorem assemble?_parts (operation : Operation) :
    assemble? operation.label operation.inner operation.branches = some operation := by
  cases operation <;> rfl

/-- Parts are smaller. -/
theorem sizeOf_lt_of_mem_inner {operation part : Operation} (h : part ∈ operation.inner) :
    sizeOf part < sizeOf operation := by
  cases operation with
  | literal _ | getVariable _ => cases h
  | setVariable _ _ _ _ | getMember _ _ | unary _ _ | stackPush _ | stackPop _ | giveBack _
  | ifThen _ _ | ifThenElse _ _ _ =>
    rw [List.mem_singleton.mp h]
    simp +arith
  | setMember _ _ _ | getIndex _ _ | binary _ _ _ =>
    rcases List.mem_pair.mp h with rfl | rfl <;> simp +arith
  | setIndex object index value =>
    simp only [inner, operands, List.mem_cons, List.not_mem_nil, or_false] at h
    rcases h with rfl | rfl | rfl <;> simp +arith
  | call callee arguments =>
    rcases List.mem_cons.mp h with rfl | hargument
    · simp +arith
    · have hsmall := List.sizeOf_lt_of_mem hargument
      rw [call.sizeOf_spec]
      omega
  | createList _ | function _ _ _ | block _ =>
    have hsmall := List.sizeOf_lt_of_mem h
    simp only [inner, operands, createList.sizeOf_spec, function.sizeOf_spec,
      block.sizeOf_spec] at hsmall ⊢
    omega

/-- What is in a branch is smaller. -/
theorem sizeOf_lt_of_mem_branch {operation part : Operation} {body : List Operation}
    (hbody : body ∈ operation.branches) (h : part ∈ body) : sizeOf part < sizeOf operation := by
  have hsmall := List.sizeOf_lt_of_mem h
  cases operation with
  | ifThen condition consequence =>
    obtain rfl := List.mem_singleton.mp hbody
    rw [ifThen.sizeOf_spec]
    omega
  | ifThenElse condition consequence alternative =>
    rw [ifThenElse.sizeOf_spec]
    rcases List.mem_pair.mp hbody with rfl | rfl <;> omega
  | _ => cases hbody

/-- Induction on the operations that are shown below an operation. -/
theorem induction_below {motive : Operation → Prop}
    (step : ∀ operation, (∀ part ∈ operation.inner, motive part) →
      (∀ body ∈ operation.branches, ∀ part ∈ body, motive part) → motive operation)
    (operation : Operation) : motive operation :=
  step operation (fun part _ => induction_below step part)
    (fun _ _ part _ => induction_below step part)
termination_by sizeOf operation
decreasing_by
  · exact sizeOf_lt_of_mem_inner ‹_›
  · exact sizeOf_lt_of_mem_branch ‹_› ‹_›

end Operation

/-! ## Plain programs -/

/-- All names in the program are words, and no constant is a floating-point number. -/
def Program.IsPlain (program : Program) : Prop :=
  ∀ around operation, program.Holds around operation → operation.label.IsPlain

/-- A program is plain if its operations are among plain ones that have their parts among them. -/
theorem Program.isPlain_of_subset {program : Program} {operations : List Operation}
    (hbody : program.body ⊆ operations)
    (hparts : ∀ operation ∈ operations, operation.operands ⊆ operations ∧
      ∀ body ∈ operation.bodies, body ⊆ operations)
    (hplain : ∀ operation ∈ operations, operation.label.IsPlain) : program.IsPlain := by
  intro around operation h
  suffices hmem : operation ∈ operations from hplain operation hmem
  induction h with
  | statement hmem => exact hbody hmem
  | inBody _ hinner hmem ih => exact (hparts _ ih).2 _ hinner hmem
  | operand _ hmem ih => exact (hparts _ ih).1 hmem

section

variable {program : Program} {around body : List Operation} {operation part : Operation}

/-- A program that holds an operation holds its parts. -/
theorem Program.Holds.inner (h : program.Holds around operation)
    (hpart : part ∈ operation.inner) : ∃ around, program.Holds around part := by
  cases operation with
  | function _ _ _ | block _ => exact ⟨[], h.inBody List.mem_cons_self hpart⟩
  | _ => exact ⟨_, h.operand hpart⟩

/-- A program that holds an operation holds its branches. -/
theorem Program.Holds.branch (h : program.Holds around operation)
    (hbody : body ∈ operation.branches) (hpart : part ∈ body) :
    ∃ around, program.Holds around part := by
  cases operation with
  | ifThen _ _ | ifThenElse _ _ _ => exact ⟨[], h.inBody hbody hpart⟩
  | _ => cases hbody

end

/-! ## Lines -/

namespace Operation

/-- The text does not begin with a blank. -/
def Begins (text : String) : Prop := ∃ c rest, text.toList = c :: rest ∧ c ≠ ' '

/-- A heading begins a line. -/
theorem begins_heading (label : Label) : Begins label.heading := by
  obtain ⟨c, rest, hheading, hc⟩ := label.exists_heading_cons
  exact ⟨c, rest, hheading, by simp_all⟩

/-- The mark of a branch begins a line. -/
theorem begins_mark {mark : String} (h : mark ∈ branchMarks) : Begins mark := by
  rcases List.mem_pair.mp h with rfl | rfl
  · exact ⟨'T', ['h', 'e', 'n'], by decide, by decide⟩
  · exact ⟨'E', ['l', 's', 'e'], by decide, by decide⟩

/-- No heading is the mark of a branch. -/
theorem heading_notMem_branchMarks (label : Label) : label.heading ∉ branchMarks := by
  obtain ⟨c, rest, hheading, hc⟩ := label.exists_heading_cons
  intro hmark
  rcases List.mem_pair.mp hmark with h | h <;> rw [h] at hheading <;> cases hheading <;>
    exact hc (by decide)

/-- The depth of a line is read off its blanks. -/
theorem line_injective {depth depth' : Nat} {text text' : String} (htext : Begins text)
    (htext' : Begins text') (h : line depth text = line depth' text') :
    depth = depth' ∧ text = text' := by
  have hblanks (depth : Nat) : ∀ c ∈ List.replicate (2 * depth) ' ', (c == ' ') = true := by
    intro c hc
    exact beq_iff_eq.mpr (List.eq_of_mem_replicate hc)
  have hstops {text : String} (h : Begins text) : Scan.Stops (· == ' ') text.toList := by
    obtain ⟨c, rest, hchars, hc⟩ := h
    rw [hchars]
    exact @Scan.stops_cons (· == ' ') c (beq_eq_false_iff_ne.mpr hc) rest
  have hchars := congrArg String.toList h
  rw [line, line, String.toList_append, String.toList_append, String.toList_ofList,
    String.toList_ofList] at hchars
  obtain ⟨hblank, hrest⟩ := Scan.append_injective_of_stops (hblanks depth) (hblanks depth')
    (hstops htext) (hstops htext') hchars
  have hlength := congrArg List.length hblank
  rw [List.length_replicate, List.length_replicate] at hlength
  exact ⟨by omega, String.toList_inj.mp hrest⟩

/-- The lines are none, or the first one is further out. -/
def Outside (depth : Nat) (lines : List String) : Prop :=
  ∀ text ∈ lines.head?, ∃ outer heading, text = line outer heading ∧ Begins heading ∧ outer < depth

/-- The lines may follow the outline of an operation: there are none, or the first one is further
out, or just as far and not the mark of a branch. -/
def Follows (depth : Nat) (lines : List String) : Prop :=
  ∀ text ∈ lines.head?, ∃ outer heading, text = line outer heading ∧ Begins heading ∧
    (outer < depth ∨ outer = depth ∧ heading ∉ branchMarks)

section

variable {depth : Nat} {rest rest' : List String} {text : String}

/-- No lines are outside. -/
theorem Outside.nil : Outside depth [] := fun _ h => nomatch h

/-- What follows a depth is outside the next. -/
theorem Follows.outside (h : Follows depth rest) : Outside (depth + 1) rest := by
  intro text htext
  obtain ⟨outer, heading, rfl, hbegins, houter⟩ := h text htext
  exact ⟨outer, heading, rfl, hbegins, by omega⟩

/-- What is outside a depth follows it. -/
theorem Outside.follows (h : Outside depth rest) : Follows depth rest := by
  intro text htext
  obtain ⟨outer, heading, rfl, hbegins, houter⟩ := h text htext
  exact ⟨outer, heading, rfl, hbegins, .inl houter⟩

/-- A line at a depth is not further out. -/
theorem Outside.ne_line (h : Outside depth rest) (htext : Begins text) (lines : List String) :
    rest ≠ line depth text :: lines := by
  rintro rfl
  obtain ⟨outer, heading, hline, hbegins, houter⟩ := h _ rfl
  obtain ⟨rfl, -⟩ := line_injective htext hbegins hline
  exact lt_irrefl _ houter

/-- The mark of a branch belongs to the operation in front of it. -/
theorem Follows.ne_mark (h : Follows depth rest) (htext : text ∈ branchMarks)
    (lines : List String) : rest ≠ line depth text :: lines := by
  rintro rfl
  obtain ⟨outer, heading, hline, hbegins, houter⟩ := h _ rfl
  obtain ⟨rfl, rfl⟩ := line_injective (begins_mark htext) hbegins hline
  exact houter.elim (lt_irrefl _) fun hmark => hmark.2 htext

/-- The outline of operations follows its depth. -/
theorem follows_outlineAll (operations : List Operation) (h : Outside depth rest) :
    Follows depth (outlineAll depth operations ++ rest) := by
  cases operations with
  | nil =>
    rw [outlineAll]
    exact h.follows
  | cons operation operations =>
    intro text htext
    rw [outlineAll, outline_eq, List.cons_append, List.cons_append, List.head?_cons] at htext
    cases htext
    exact ⟨depth, _, rfl, begins_heading _, .inr ⟨rfl, heading_notMem_branchMarks _⟩⟩

/-- Branches are outside the next depth. -/
theorem outside_marked {marks : List String} (hmarks : ∀ mark ∈ marks, mark ∈ branchMarks)
    (bodies : List (List Operation)) (h : Follows depth rest) :
    Outside (depth + 1) (marked depth marks bodies ++ rest) := by
  unfold marked
  split
  · rename_i mark marks body bodies
    intro text htext
    cases htext
    exact ⟨depth, mark, rfl, begins_mark (hmarks mark List.mem_cons_self), Nat.lt_succ_self _⟩
  · exact h.outside

/-! ## Operations are read off their lines -/

/-- The operation, and what follows its lines, can be read off the lines together: no operation of
the program gives the same lines with something else behind them. -/
def IsReadOff (program : Program) (operation : Operation) : Prop :=
  ∀ {depth : Nat} {around : List Operation} {other : Operation} {rest rest' : List String},
    program.Holds around other → Follows depth rest → Follows depth rest' →
    outline depth operation ++ rest = outline depth other ++ rest' →
    operation = other ∧ rest = rest'

variable {program : Program}

/-- Operations are read off their lines. -/
theorem outlineAll_append_injective {operations others : List Operation}
    (h : ∀ operation ∈ operations, IsReadOff program operation)
    (hothers : ∀ other ∈ others, ∃ around, program.Holds around other)
    (hrest : Outside depth rest) (hrest' : Outside depth rest')
    (hsame : outlineAll depth operations ++ rest = outlineAll depth others ++ rest') :
    operations = others ∧ rest = rest' := by
  induction operations generalizing others with
  | nil =>
    cases others with
    | nil => exact ⟨rfl, hsame⟩
    | cons other others =>
      rw [outlineAll, outlineAll, outline_eq] at hsame
      exact absurd hsame (hrest.ne_line (begins_heading _) _)
  | cons operation operations ih =>
    obtain ⟨hoperation, hoperations⟩ := List.forall_mem_cons.mp h
    cases others with
    | nil =>
      rw [outlineAll, outlineAll, outline_eq] at hsame
      exact absurd hsame.symm (hrest'.ne_line (begins_heading _) _)
    | cons other others =>
      obtain ⟨⟨around, hother⟩, hlater⟩ := List.forall_mem_cons.mp hothers
      rw [outlineAll, outlineAll, List.append_assoc, List.append_assoc] at hsame
      obtain ⟨rfl, hafter⟩ := hoperation hother (follows_outlineAll operations hrest)
        (follows_outlineAll others hrest') hsame
      obtain ⟨rfl, hlast⟩ := ih hoperations hlater hafter
      exact ⟨rfl, hlast⟩

/-- Branches are read off their lines. -/
theorem marked_append_injective {marks : List String} {bodies others : List (List Operation)}
    (hmarks : ∀ mark ∈ marks, mark ∈ branchMarks) (hbodies : bodies.length ≤ marks.length)
    (hothers : others.length ≤ marks.length)
    (h : ∀ body ∈ bodies, ∀ operation ∈ body, IsReadOff program operation)
    (hheld : ∀ other ∈ others, ∀ operation ∈ other, ∃ around, program.Holds around operation)
    (hrest : Follows depth rest) (hrest' : Follows depth rest')
    (hsame : marked depth marks bodies ++ rest = marked depth marks others ++ rest') :
    bodies = others ∧ rest = rest' := by
  induction marks generalizing bodies others with
  | nil =>
    obtain rfl := List.eq_nil_of_length_eq_zero (Nat.le_zero.mp hbodies)
    obtain rfl := List.eq_nil_of_length_eq_zero (Nat.le_zero.mp hothers)
    exact ⟨rfl, hsame⟩
  | cons mark marks ih =>
    obtain ⟨hmark, hmarks⟩ := List.forall_mem_cons.mp hmarks
    -- If one side has no further branch, its rest would have to begin with the other one's mark.
    cases bodies with
    | nil =>
      cases others with
      | nil => exact ⟨rfl, hsame⟩
      | cons other others => exact absurd hsame (hrest.ne_mark hmark _)
    | cons body bodies =>
      cases others with
      | nil => exact absurd hsame.symm (hrest'.ne_mark hmark _)
      | cons other others =>
        obtain ⟨hbody, hbodies'⟩ := List.forall_mem_cons.mp h
        obtain ⟨hother, hothers'⟩ := List.forall_mem_cons.mp hheld
        simp only [marked, List.cons_append, List.append_assoc] at hsame
        obtain ⟨rfl, hafter⟩ := outlineAll_append_injective hbody hother
          (outside_marked hmarks bodies hrest) (outside_marked hmarks others hrest')
          (List.cons.inj hsame).2
        obtain ⟨rfl, hlast⟩ := ih hmarks (Nat.le_of_succ_le_succ hbodies)
          (Nat.le_of_succ_le_succ hothers) hbodies' hothers' hafter
        exact ⟨rfl, hlast⟩

end

/-- No operation has more branches than there are marks. -/
theorem length_branches_le (operation : Operation) :
    operation.branches.length ≤ branchMarks.length := by
  cases operation <;> simp [branches, branchMarks]

/-- An operation is read off its lines if those below it are. -/
theorem isReadOff_step {program : Program} (hprogram : program.IsPlain) {operation : Operation}
    (hplain : operation.label.IsPlain)
    (hinner : ∀ part ∈ operation.inner, IsReadOff program part)
    (hbranches : ∀ body ∈ operation.branches, ∀ part ∈ body, IsReadOff program part) :
    IsReadOff program operation := by
  intro depth around other rest rest' hother hrest hrest' hsame
  simp only [outline_eq, List.cons_append, List.append_assoc] at hsame
  obtain ⟨hline, hbelow⟩ := List.cons.inj hsame
  have hheading := (line_injective (begins_heading _) (begins_heading _) hline).2
  have hlabel := Label.heading_injective hplain (hprogram around other hother) hheading
  -- The deeper lines end at the mark of a branch or at the rest, both no deeper than this one.
  have hmarks : ∀ mark ∈ branchMarks, mark ∈ branchMarks := fun _ h => h
  obtain ⟨hsameInner, hmarked⟩ := outlineAll_append_injective hinner
    (fun part hpart => hother.inner hpart) (outside_marked hmarks operation.branches hrest)
    (outside_marked hmarks other.branches hrest') hbelow
  obtain ⟨hsameBranches, hafter⟩ := marked_append_injective hmarks (length_branches_le operation)
    (length_branches_le other) hbranches (fun body hbody part hpart => hother.branch hbody hpart)
    hrest hrest' hmarked
  have hparts := assemble?_parts operation
  rw [hlabel, hsameInner, hsameBranches, assemble?_parts other] at hparts
  exact ⟨(Option.some.inj hparts).symm, hafter⟩

/-- Every operation in a plain program is read off its lines. -/
theorem isReadOff_of_holds {first second : Program} (hfirst : first.IsPlain)
    (hsecond : second.IsPlain) (operation : Operation) :
    (∃ around, first.Holds around operation) → IsReadOff second operation := by
  induction operation using induction_below with
  | step operation ihinner ihbranches =>
    rintro ⟨around, hheld⟩
    refine isReadOff_step hsecond (hfirst around operation hheld) ?_ ?_
    · exact fun part hpart => ihinner part hpart (hheld.inner hpart)
    · exact fun body hbody part hpart => ihbranches body hbody part hpart (hheld.branch hbody hpart)

/-! ## Lines of a text -/

/-- Lines can be read off their text if none has a line feed in it. -/
theorem joinLines_injective {lines others : List String} (h : ∀ text ∈ lines, '\n' ∉ text.toList)
    (hothers : ∀ text ∈ others, '\n' ∉ text.toList) (hsame : joinLines lines = joinLines others) :
    lines = others := by
  have hcons (text : String) (lines : List String) :
      (joinLines (text :: lines)).toList = text.toList ++ '\n' :: (joinLines lines).toList := by
    simp [joinLines]
  have hne (text : String) (lines : List String) : joinLines (text :: lines) ≠ joinLines [] := by
    intro hempty
    have hchars := congrArg String.toList hempty
    rw [hcons] at hchars
    simp [joinLines] at hchars
  have hstops (rest : List Char) : Scan.Stops (· != '\n') ('\n' :: rest) :=
    @Scan.stops_cons (· != '\n') '\n' rfl rest
  have hrun {text : String} (htext : '\n' ∉ text.toList) : ∀ c ∈ text.toList, (c != '\n') = true :=
    fun c hc => bne_iff_ne.mpr (ne_of_mem_of_not_mem hc htext)
  induction lines generalizing others with
  | nil =>
    cases others with
    | nil => rfl
    | cons other others => exact absurd hsame.symm (hne other others)
  | cons text lines ih =>
    cases others with
    | nil => exact absurd hsame (hne text lines)
    | cons other others =>
      obtain ⟨htext, hlines⟩ := List.forall_mem_cons.mp h
      obtain ⟨hother, hlater⟩ := List.forall_mem_cons.mp hothers
      have hchars := congrArg String.toList hsame
      rw [hcons, hcons] at hchars
      obtain ⟨hfirst, hrest⟩ := Scan.append_injective_of_stops (hrun htext) (hrun hother)
        (hstops _) (hstops _) hchars
      rw [String.toList_inj.mp hfirst,
        ih hlines hlater (String.toList_inj.mp (List.cons.inj hrest).2)]

/-- No line has a line feed of its own. -/
theorem lineFeed_notMem_line {text : String} (h : '\n' ∉ text.toList) (depth : Nat) :
    '\n' ∉ (line depth text).toList := by
  simpa [line] using h

/-- No outline of operations has a line feed in a line. -/
theorem lineFeed_notMem_outlineAll {depth : Nat} {operations : List Operation}
    (h : ∀ operation ∈ operations, ∀ text ∈ outline depth operation, '\n' ∉ text.toList) :
    ∀ text ∈ outlineAll depth operations, '\n' ∉ text.toList := by
  induction operations with
  | nil => exact fun _ hmem => nomatch hmem
  | cons operation operations ih =>
    obtain ⟨hfirst, hrest⟩ := List.forall_mem_cons.mp h
    rw [outlineAll]
    exact List.forall_mem_append.mpr ⟨hfirst, ih hrest⟩

/-- No outline of branches has a line feed in a line. -/
theorem lineFeed_notMem_marked {depth : Nat} {marks : List String}
    {bodies : List (List Operation)} (hmarks : ∀ mark ∈ marks, '\n' ∉ mark.toList)
    (h : ∀ body ∈ bodies, ∀ operation ∈ body, ∀ text ∈ outline (depth + 1) operation,
      '\n' ∉ text.toList) :
    ∀ text ∈ marked depth marks bodies, '\n' ∉ text.toList := by
  induction marks generalizing bodies with
  | nil => exact fun _ hmem => nomatch hmem
  | cons mark marks ih =>
    cases bodies with
    | nil => exact fun _ hmem => nomatch hmem
    | cons body bodies =>
      obtain ⟨hmark, hmarks⟩ := List.forall_mem_cons.mp hmarks
      obtain ⟨hbody, hbodies⟩ := List.forall_mem_cons.mp h
      rw [marked]
      exact List.forall_mem_cons.mpr ⟨lineFeed_notMem_line hmark depth,
        List.forall_mem_append.mpr ⟨lineFeed_notMem_outlineAll hbody, ih hmarks hbodies⟩⟩

/-- No outline of an operation in a plain program has a line feed in a line. -/
theorem lineFeed_notMem_outline {program : Program} (hprogram : program.IsPlain)
    (operation : Operation) :
    (∃ around, program.Holds around operation) →
      ∀ depth, ∀ text ∈ outline depth operation, '\n' ∉ text.toList := by
  induction operation using induction_below with
  | step operation ihinner ihbranches =>
    rintro ⟨around, hheld⟩ depth
    have hheading := Label.lineFeed_notMem_heading (hprogram around operation hheld)
    have hinner := lineFeed_notMem_outlineAll fun part hpart =>
      ihinner part hpart (hheld.inner hpart) (depth + 1)
    have hbranches := lineFeed_notMem_marked (by decide : ∀ mark ∈ branchMarks, '\n' ∉ mark.toList)
      fun body hbody part hpart =>
        ihbranches body hbody part hpart (hheld.branch hbody hpart) (depth + 1)
    rw [outline_eq]
    exact List.forall_mem_cons.mpr ⟨lineFeed_notMem_line hheading depth,
      List.forall_mem_append.mpr ⟨hinner, hbranches⟩⟩

end Operation

namespace Program

open Operation

/-- No line of a plain program has a line feed in it. -/
theorem lineFeed_notMem_lines {program : Program} (hprogram : program.IsPlain) :
    ∀ text ∈ "Program" :: outlineAll 1 program.body, '\n' ∉ text.toList :=
  List.forall_mem_cons.mpr ⟨by decide, lineFeed_notMem_outlineAll fun operation hmem =>
    lineFeed_notMem_outline hprogram operation ⟨[], .statement hmem⟩ 1⟩

/-- Programs with plain labels have the same outline only if they are the same. -/
theorem render_eq_iff {first second : Program} (hfirst : first.IsPlain)
    (hsecond : second.IsPlain) : first.render = second.render ↔ first = second := by
  constructor
  · intro hsame
    have hlines := joinLines_injective (lineFeed_notMem_lines hfirst)
      (lineFeed_notMem_lines hsecond) hsame
    have hbodies : outlineAll 1 first.body ++ [] = outlineAll 1 second.body ++ [] := by
      rw [(List.cons.inj hlines).2]
    obtain ⟨hbody, -⟩ := outlineAll_append_injective
      (fun operation hmem => isReadOff_of_holds hfirst hsecond operation ⟨[], .statement hmem⟩)
      (fun operation hmem => ⟨[], .statement hmem⟩) .nil .nil hbodies
    exact congrArg Program.mk hbody
  · exact fun h => congrArg render h

/-- A conditional with an alternative, in one without. -/
def innerElse : Program :=
  ⟨[.ifThen (.getVariable "a") [.ifThenElse (.getVariable "b") [] [.getVariable "c"]]]⟩

/-- A conditional without an alternative, in one with it. -/
def outerElse : Program :=
  ⟨[.ifThenElse (.getVariable "a") [.ifThen (.getVariable "b") []] [.getVariable "c"]]⟩

/-- The program with the inner `else` is plain. -/
theorem innerElse_isPlain : innerElse.IsPlain := by
  apply @isPlain_of_subset _ ([.ifThenElse (.getVariable "b") [] [.getVariable "c"],
    .getVariable "a", .getVariable "b", .getVariable "c"] ++ innerElse.body)
  · exact List.subset_append_right _ _
  · simp [innerElse, operands, bodies]
  · simp [innerElse, label, Label.IsPlain, Label.names, IsWordName]

/-- The program with the outer `else` is plain. -/
theorem outerElse_isPlain : outerElse.IsPlain := by
  apply @isPlain_of_subset _ ([.ifThen (.getVariable "b") [], .getVariable "a", .getVariable "b",
    .getVariable "c"] ++ outerElse.body)
  · exact List.subset_append_right _ _
  · simp [outerElse, operands, bodies]
  · simp [outerElse, label, Label.IsPlain, Label.names, IsWordName]

/-- Two programs that differ in whose `else` it is. -/
theorem render_innerElse_ne :
    innerElse.IsPlain ∧ outerElse.IsPlain ∧ innerElse.render ≠ outerElse.render := by
  refine ⟨innerElse_isPlain, outerElse_isPlain, fun hsame => ?_⟩
  have h := (render_eq_iff innerElse_isPlain outerElse_isPlain).mp hsame
  cases h

end Program

end TreeScript
