import TreeScript.Proofs.Machine.Lockstep

/-!
# Runs are local

A program that is run in a scope can get at what is reachable from the scope and at what it makes
itself, and at nothing else. All other lists, objects and scopes stay as they are, and nothing
that could not be reached before can be reached afterwards, unless it is new.

Scopes that share no reachable list, object or scope are therefore worlds apart. However programs
are run in them in turn, each scope sees what it would see if only its own programs were run.
-/

namespace TreeScript

/-! ## What one run can get at -/

/-- Places that stand for themselves. -/
def Matching.within (kept : Place → Prop) : Matching where
  Pairs place place' := kept place ∧ place' = place
  shelf_eq h := by rw [h.2]
  eq_iff h hnext := by rw [h.2, hnext.2]

/-- A heap is like itself along places whose contents mention only such places. -/
theorem Heap.joined_within {heap : Heap} {kept : Place → Prop} {limit : Shelf → Nat}
    (hclosed : ∀ place next, kept place → heap.Refers place next → kept next)
    (hnext : ∀ shelf offset, heap.size shelf + offset < limit shelf →
      kept ⟨shelf, heap.size shelf + offset⟩) :
    heap.Joined (.within kept) limit heap where
  contents {place place'} hpair := by
    obtain ⟨hkept, rfl⟩ := hpair
    cases hcontent : heap.content place' with
    | none => exact .none
    | some content =>
      refine .some (Content.matches_self fun next hmention => ⟨?_, rfl⟩)
      exact hclosed place' next hkept ⟨content, hcontent, hmention⟩
  next shelf offset hlimit := ⟨hnext shelf offset hlimit, rfl⟩

/-- The place was made between one state of the heap and another. -/
def Heap.Makes (before after : Heap) (place : Place) : Prop :=
  ¬ before.Has place ∧ after.Has place

/-- A run stays within what it reaches. -/
theorem run_within (program : Program) (scope : ScopeId) (machine : Machine) :
    let after := (program.run scope machine).2
    let kept := fun place =>
      machine.heap.Reaches scope.place place ∨ machine.heap.Makes after.heap place
    machine.heap.Spares (.within kept) after.heap ∧
      (∀ place next, kept place → after.heap.Refers place next → kept next) ∧
      ∀ value place, (program.run scope machine).1 = .ok value → value.place? = some place →
        kept place := by
  intro after kept
  have hjoined : machine.heap.Joined (.within kept) after.heap.size machine.heap := by
    refine Heap.joined_within ?_ fun shelf offset hlimit => ?_
    · intro place next hplace hrefers
      rcases hplace with hreach | hmade
      · exact .inl (hreach.tail hrefers)
      · obtain ⟨content, hcontent, -⟩ := hrefers
        exact absurd (Heap.has_iff.mpr ⟨content, hcontent⟩) hmade.1
    · exact .inr ⟨Nat.not_lt.mpr (Nat.le_add_right _ _), hlimit⟩
  have hscope : (Matching.within kept).Pairs scope.place scope.place := ⟨.inl .refl, rfl⟩
  obtain ⟨hresult, hadvance⟩ := program.run_agrees hscope hjoined fun _ => Nat.le_refl _
  refine ⟨hadvance.spares, fun place next hplace hrefers => ?_, fun value place hvalue hplace => ?_⟩
  · have hpair : (Matching.within kept).Pairs place place := ⟨hplace, rfl⟩
    obtain ⟨next', hnext⟩ := hadvance.joined.heap.exists_pair hpair hrefers
    exact hnext.1
  · rw [hvalue] at hresult
    cases hresult with
    | ok hmatch =>
      obtain ⟨place', -, hpair⟩ := hmatch.exists_pair hplace
      exact hpair.1

/-! ## Programs run in turn -/

/-- What is seen of one run: how it ends, as the fault or the type and the text of the value, and
the lines it prints. -/
structure Observation where
  outcome : Except Fault (ValueType × String)
  lines : List String

/-- What is seen of a run that has led away from a machine. -/
def Machine.observe (before : Machine) (run : Except Fault Value × Machine) : Observation where
  outcome := run.1.map fun value => (value.type, run.2.heap.render value)
  lines := run.2.output.toList.drop before.output.size

/-- Runs that lead to machines that are alike look alike. -/
theorem observe_eq {matching : Matching} {limit : Shelf → Nat} {machine other : Machine}
    {run run' : Except Fault Value × Machine}
    (hresult : Agree (Value.Matches matching) run.1 run'.1)
    (hadvance : machine.Advances matching limit other run.2 run'.2) :
    machine.observe run = other.observe run' := by
  obtain ⟨lines, hlines, hlines'⟩ := hadvance.lines
  have houtcome : run.1.map (fun value => (value.type, run.2.heap.render value)) =
      run'.1.map fun value => (value.type, run'.2.heap.render value) := by
    generalize run.1 = outcome, run'.1 = outcome' at hresult
    cases hresult with
    | ok hmatch =>
      simp only [Except.map]
      rw [hmatch.type_eq, hadvance.joined.heap.render_eq hmatch]
    | error fault => rfl
  rw [Machine.observe, Machine.observe, houtcome, hlines, hlines']
  simp

variable {Context : Type}

/-- Run programs one after the other, each in the scope of its context. -/
def runInTurn (scopes : Context → ScopeId) :
    List (Context × Program) → Machine → List (Context × Observation) × Machine
  | [], machine => ([], machine)
  | (context, program) :: jobs, machine =>
    let run := program.run (scopes context) machine
    let (observations, last) := runInTurn scopes jobs run.2
    ((context, machine.observe run) :: observations, last)

/-- The scopes of different contexts share no list, object or scope that can be reached from both,
and all that can be reached from them is there. -/
structure Heap.KeepsApart (heap : Heap) (scopes : Context → ScopeId) : Prop where
  has : ∀ {context : Context} {place : Place},
    heap.Reaches (scopes context).place place → heap.Has place
  apart : ∀ {context other : Context} {place : Place}, context ≠ other →
    heap.Reaches (scopes context).place place → heap.Reaches (scopes other).place place →
      place.shelf = .functions

/-- Each context has a machine of its own, on which only its programs are run. What the context
can reach on the common machine stands for what it can reach on its own. -/
structure Mirrors (scopes : Context → ScopeId) (machine : Machine) (alone : Context → Machine)
    (matchings : Context → Matching) : Prop where
  scope : ∀ context, (matchings context).Pairs (scopes context).place (scopes context).place
  contents : ∀ {context : Context} {place place' : Place}, (matchings context).Pairs place place' →
    ∃ content content', machine.heap.content place = some content ∧
      (alone context).heap.content place' = some content' ∧
      content.Matches (matchings context) content'
  apart : ∀ {context other : Context} {place place' place'' : Place}, context ≠ other →
    (matchings context).Pairs place place' → (matchings other).Pairs place place'' →
      place.shelf = .functions

/-- A matching with the places that come next in two heaps, up to a limit. -/
def Matching.extend (matching : Matching) (limit : Shelf → Nat) (heap other : Heap)
    (hhas : ∀ {place place'}, matching.Pairs place place' → heap.Has place ∧ other.Has place') :
    Matching where
  Pairs place place' := matching.Pairs place place' ∨
    ∃ shelf offset, heap.size shelf + offset < limit shelf ∧
      place = ⟨shelf, heap.size shelf + offset⟩ ∧ place' = ⟨shelf, other.size shelf + offset⟩
  shelf_eq h := by
    rcases h with hpair | ⟨shelf, offset, -, rfl, rfl⟩
    · exact matching.shelf_eq hpair
    · rfl
  eq_iff {place place' next next'} h hnext := by
    have hbeyond (heap : Heap) (shelf : Shelf) (offset : Nat) :
        ¬ heap.Has ⟨shelf, heap.size shelf + offset⟩ := Nat.not_lt.mpr (Nat.le_add_right _ _)
    rcases h with hpair | ⟨shelf, offset, -, rfl, rfl⟩
    · rcases hnext with hpair' | ⟨shelf, offset, -, rfl, rfl⟩
      · exact matching.eq_iff hpair hpair'
      · refine iff_of_false ?_ ?_ <;> rintro rfl
        · exact hbeyond heap shelf offset (hhas hpair).1
        · exact hbeyond other shelf offset (hhas hpair).2
    · rcases hnext with hpair' | ⟨shelf', offset', -, rfl, rfl⟩
      · refine iff_of_false ?_ ?_ <;> rintro rfl
        · exact hbeyond heap shelf offset (hhas hpair').1
        · exact hbeyond other shelf offset (hhas hpair').2
      · by_cases hshelf : shelf = shelf'
        · subst hshelf
          simp
        · simp [hshelf]

namespace Mirrors

variable {scopes : Context → ScopeId} {machine : Machine} {alone : Context → Machine}
  {matchings : Context → Matching}

/-- Paired places are there. -/
theorem has (h : Mirrors scopes machine alone matchings) {context : Context}
    {place place' : Place} (hpair : (matchings context).Pairs place place') :
    machine.heap.Has place ∧ (alone context).heap.Has place' := by
  obtain ⟨content, content', hcontent, hcontent', -⟩ := h.contents hpair
  exact ⟨Heap.has_iff.mpr ⟨content, hcontent⟩, Heap.has_iff.mpr ⟨content', hcontent'⟩⟩

/-- The matching of a context with the places that come next on the two machines. -/
def grown (h : Mirrors scopes machine alone matchings) (context : Context)
    (limit : Shelf → Nat) : Matching :=
  (matchings context).extend limit machine.heap (alone context).heap h.has

/-- Mirrors are joined as they grow. -/
theorem joined_grown (h : Mirrors scopes machine alone matchings) (context : Context)
    (limit : Shelf → Nat) :
    machine.heap.Joined (h.grown context limit) limit (alone context).heap where
  contents {place place'} hpair := by
    rcases hpair with hpair | ⟨shelf, offset, -, rfl, rfl⟩
    · obtain ⟨content, content', hcontent, hcontent', hmatch⟩ := h.contents hpair
      rw [hcontent, hcontent']
      exact .some (hmatch.mono .inl)
    · rw [Heap.content_eq_none_iff.mpr (Nat.not_lt.mpr (Nat.le_add_right _ _)),
        Heap.content_eq_none_iff.mpr (Nat.not_lt.mpr (Nat.le_add_right _ _))]
      exact .none
  next shelf offset hlimit := .inr ⟨shelf, offset, hlimit, rfl, rfl⟩

/-- What a context can reach is matched. -/
theorem exists_pair (h : Mirrors scopes machine alone matchings) {context : Context}
    {place : Place} (hreach : machine.heap.Reaches (scopes context).place place) :
    ∃ place', (matchings context).Pairs place place' := by
  induction hreach with
  | refl => exact ⟨_, h.scope context⟩
  | tail _ hrefers ih =>
    obtain ⟨place', hpair⟩ := ih
    obtain ⟨content, hcontent, hmention⟩ := hrefers
    obtain ⟨found, content', hfound, -, hmatch⟩ := h.contents hpair
    obtain rfl : content = found := Option.some.inj (hcontent.symm.trans hfound)
    exact hmatch.exists_pair hmention

/-- Contexts that are mirrored are apart. -/
theorem keepsApart (h : Mirrors scopes machine alone matchings) :
    machine.heap.KeepsApart scopes where
  has hreach := by
    obtain ⟨place', hpair⟩ := h.exists_pair hreach
    exact (h.has hpair).1
  apart hne hreach hreach' := by
    obtain ⟨place', hpair⟩ := h.exists_pair hreach
    obtain ⟨place'', hpair'⟩ := h.exists_pair hreach'
    exact h.apart hne hpair hpair'

/-- Contexts that are apart can be mirrored by the machine itself. -/
theorem of_keepsApart (h : machine.heap.KeepsApart scopes) :
    Mirrors scopes machine (fun _ => machine)
      (fun context => .within (machine.heap.Reaches (scopes context).place)) where
  scope _ := ⟨.refl, rfl⟩
  contents {context place place'} hpair := by
    obtain ⟨hreach, rfl⟩ := hpair
    obtain ⟨content, hcontent⟩ := Heap.has_iff.mp (h.has hreach)
    refine ⟨content, content, hcontent, hcontent, Content.matches_self fun next hmention => ?_⟩
    exact ⟨hreach.tail ⟨content, hcontent, hmention⟩, rfl⟩
  apart hne hpair hpair' := h.apart hne hpair.1 hpair'.1

/-- What is matched on the way of a run is there at its end. -/
theorem exists_contents (h : Mirrors scopes machine alone matchings) {context : Context}
    {after after' : Machine}
    (hadvance : machine.Advances (h.grown context after.heap.size) after.heap.size (alone context)
      after after')
    {place place' : Place} (hpair : (h.grown context after.heap.size).Pairs place place') :
    ∃ content content', after.heap.content place = some content ∧
      after'.heap.content place' = some content' ∧
      content.Matches (h.grown context after.heap.size) content' := by
  have hhas : after.heap.Has place := by
    rcases hpair with hpair | ⟨shelf, offset, hlimit, rfl, rfl⟩
    · exact Nat.lt_of_lt_of_le (h.has hpair).1 (hadvance.spares.enlarges place.shelf)
    · exact hlimit
  obtain ⟨content, hcontent⟩ := Heap.has_iff.mp hhas
  have hrel := hadvance.joined.heap.contents hpair
  rw [hcontent] at hrel
  generalize hcontent' : after'.heap.content place' = found at hrel
  cases hrel with
  | some hmatch => exact ⟨content, _, hcontent, rfl, hmatch⟩

variable [DecidableEq Context]

/-- A run in one context is seen alike on the common machine and on that of the context, and
leaves all contexts mirrored. -/
theorem run (h : Mirrors scopes machine alone matchings) (context : Context) (program : Program) :
    machine.observe (program.run (scopes context) machine) =
        (alone context).observe (program.run (scopes context) (alone context)) ∧
      ∃ matchings', Mirrors scopes (program.run (scopes context) machine).2
        (Function.update alone context (program.run (scopes context) (alone context)).2)
        matchings' := by
  let limit := (program.run (scopes context) machine).2.heap.size
  let grown := h.grown context limit
  have hscope : grown.Pairs (scopes context).place (scopes context).place :=
    .inl (h.scope context)
  obtain ⟨hresult, hadvance⟩ :=
    program.run_agrees hscope (h.joined_grown context limit) fun _ => Nat.le_refl _
  refine ⟨observe_eq hresult hadvance, Function.update matchings context grown, ?_⟩
  -- What the context reaches now was reached before or is new; so it is still apart.
  have hgrown {other : Context} {place place' place'' : Place} (hne : context ≠ other)
      (hpair : grown.Pairs place place') (hother : (matchings other).Pairs place place'') :
      place.shelf = .functions := by
    rcases hpair with hpair | ⟨shelf, offset, -, rfl, rfl⟩
    · exact h.apart hne hpair hother
    · exact absurd (h.has hother).1 (Nat.not_lt.mpr (Nat.le_add_right _ _))
  refine ⟨fun other => ?_, fun {other place place'} hpair => ?_,
    fun {first second place place' place''} hne hpair hpair' => ?_⟩
  · by_cases hcontext : other = context
    · subst hcontext
      rwa [Function.update_self]
    · rw [Function.update_of_ne hcontext]
      exact h.scope other
  · by_cases hcontext : other = context
    · subst hcontext
      rw [Function.update_self] at hpair
      simp only [Function.update_self]
      exact exists_contents h hadvance hpair
    · rw [Function.update_of_ne hcontext] at hpair
      simp only [Function.update_of_ne hcontext]
      obtain ⟨content, content', hcontent, hcontent', hmatch⟩ := h.contents hpair
      refine ⟨content, content', ?_, hcontent', hmatch⟩
      rw [hadvance.spares.content_eq (h.has hpair).1, hcontent]
      by_cases hshared : ∃ place', grown.Pairs place place'
      · obtain ⟨_, hshared⟩ := hshared
        exact .inl (hgrown (Ne.symm hcontext) hshared hpair)
      · exact .inr (not_exists.mp hshared)
  · by_cases hfirst : first = context
    · subst hfirst
      rw [Function.update_self] at hpair
      rw [Function.update_of_ne (Ne.symm hne)] at hpair'
      exact hgrown hne hpair hpair'
    · rw [Function.update_of_ne hfirst] at hpair
      by_cases hsecond : second = context
      · subst hsecond
        rw [Function.update_self] at hpair'
        exact hgrown (Ne.symm hne) hpair' hpair
      · rw [Function.update_of_ne hsecond] at hpair'
        exact h.apart hne hpair hpair'

/-- However programs are run in turn, a context sees what it sees when it is alone. -/
theorem runInTurn (h : Mirrors scopes machine alone matchings) (jobs : List (Context × Program)) :
    (∀ context, (TreeScript.runInTurn scopes jobs machine).1.filter (·.1 = context) =
      (TreeScript.runInTurn scopes (jobs.filter (·.1 = context)) (alone context)).1) ∧
      ∃ alone' matchings',
        Mirrors scopes (TreeScript.runInTurn scopes jobs machine).2 alone' matchings' := by
  induction jobs generalizing machine alone matchings with
  | nil => exact ⟨fun _ => rfl, alone, matchings, h⟩
  | cons job jobs ih =>
    obtain ⟨context, program⟩ := job
    obtain ⟨hobserved, matchings', hafter⟩ := h.run context program
    obtain ⟨hseen, hlast⟩ := ih hafter
    refine ⟨fun other => ?_, hlast⟩
    rw [TreeScript.runInTurn, List.filter_cons, List.filter_cons]
    have hrest := hseen other
    by_cases hcontext : context = other
    · subst hcontext
      rw [Function.update_self] at hrest
      simp only [decide_true, if_true, TreeScript.runInTurn, hobserved, hrest]
    · rw [Function.update_of_ne (Ne.symm hcontext)] at hrest
      simp only [hcontext, decide_false, Bool.false_eq_true, if_false, hrest]

end Mirrors

/-! ## Locality -/

/-- A run in a scope leaves every list, object, function and scope as it is that cannot be reached
from there, and afterwards the scope and the value reach only what the scope reached before and
what the run has made. Contexts that are apart therefore never influence each other: in whatever
order programs are run in them, they stay apart, and each context sees what it sees when the
programs of the others are left out. -/
theorem runs_are_local :
    (∀ (program : Program) (scope : ScopeId) (machine : Machine),
      let after := (program.run scope machine).2
      let reached := machine.heap.Reaches scope.place
      (∀ place, machine.heap.Has place → ¬ reached place →
        after.heap.content place = machine.heap.content place) ∧
      (∀ place, after.heap.Reaches scope.place place →
        reached place ∨ machine.heap.Makes after.heap place) ∧
      ∀ value first place, (program.run scope machine).1 = .ok value →
        value.place? = some first → after.heap.Reaches first place →
          reached place ∨ machine.heap.Makes after.heap place) ∧
    ∀ (Context : Type) [DecidableEq Context] (scopes : Context → ScopeId) (machine : Machine),
      machine.heap.KeepsApart scopes → ∀ jobs : List (Context × Program),
        (runInTurn scopes jobs machine).2.heap.KeepsApart scopes ∧
        ∀ context, (runInTurn scopes jobs machine).1.filter (·.1 = context) =
          (runInTurn scopes (jobs.filter (·.1 = context)) machine).1 := by
  refine ⟨fun program scope machine => ?_, fun Context _ scopes machine hapart jobs => ?_⟩
  · obtain ⟨hspares, hclosed, hvalue⟩ := run_within program scope machine
    refine ⟨fun place hhas hreached => hspares.content_eq hhas (.inr ?_), fun place hreach => ?_,
      fun value first place hresult hfirst hreach => ?_⟩
    · rintro place' ⟨hkept | hmade, -⟩
      · exact hreached hkept
      · exact hmade.1 hhas
    · exact hreach.mem (.inl .refl) hclosed
    · exact hreach.mem (hvalue value first hresult hfirst) hclosed
  · obtain ⟨hseen, _, _, hlast⟩ := (Mirrors.of_keepsApart hapart).runInTurn jobs
    exact ⟨hlast.keepsApart, hseen⟩

/-- A machine with two tables, each with a row of its own under one name and with the same builtin
to print it. -/
def twoTables : Machine :=
  let (first, scopes) := Scopes.empty.new
  let (second, scopes) := scopes.new
  let (print, heap) := { Heap.empty with scopes }.newFunction (.builtin .print)
  let (row, heap) := heap.newList [.int 1]
  let (otherRow, heap) := heap.newList [.int 2]
  let heap := (heap.define first "row" row).define first "print" print
  ⟨(heap.define second "row" otherRow).define second "print" print, [], #[]⟩

/-- What can be reached from a table. -/
def partsOfTable (table : Fin 2) : List Place :=
  [⟨.scopes, table⟩, ⟨.lists, table⟩, ⟨.functions, 0⟩]

/-- `row[0] = null;` -/
def clearRow : Program :=
  ⟨[.setIndex (.getVariable "row") (.literal (.int 0)) (.literal .null)]⟩

/-- `print(row);` -/
def printRow : Program := ⟨[.call (.getVariable "print") [.getVariable "row"]]⟩

/-- Each table reaches its own parts. -/
theorem mem_partsOfTable {table : Fin 2} {place : Place}
    (h : twoTables.heap.Reaches ⟨.scopes, table⟩ place) : place ∈ partsOfTable table := by
  have hclosed : ∀ table, ∀ place ∈ partsOfTable table,
      ∀ content ∈ twoTables.heap.content place, ∀ next ∈ content.places,
        next ∈ partsOfTable table := by
    decide
  refine h.mem (.head _) fun place next hplace hrefers => ?_
  obtain ⟨content, hcontent, hmention⟩ := hrefers
  exact hclosed table place hplace content hcontent next hmention

/-- The two tables are apart. -/
theorem keepsApart_twoTables : twoTables.heap.KeepsApart fun table : Fin 2 => ⟨table⟩ where
  has {table place} hreach := by
    have hhas : ∀ table, ∀ place ∈ partsOfTable table,
        place.index < twoTables.heap.size place.shelf := by
      decide
    exact hhas table place (mem_partsOfTable hreach)
  apart {table other place} hne hreach hreach' := by
    have hapart : ∀ table other, table ≠ other → ∀ place ∈ partsOfTable table,
        place ∈ partsOfTable other → place.shelf = .functions := by
      decide
    exact hapart table other hne place (mem_partsOfTable hreach) (mem_partsOfTable hreach')

/-- Clearing the row of the first table leaves the row of the second as it is, and the second
table prints the same row before and after. -/
theorem runs_are_local_of_twoTables :
    twoTables.heap.KeepsApart (fun table : Fin 2 => ⟨table⟩) ∧
    (clearRow.run ⟨0⟩ twoTables).2.heap.content ⟨.lists, 0⟩ = some (.items #[.null]) ∧
    (clearRow.run ⟨0⟩ twoTables).2.heap.content ⟨.lists, 1⟩ = some (.items #[.int 2]) ∧
    (runInTurn (fun table : Fin 2 => ⟨table⟩) [(0, clearRow), (1, printRow), (0, printRow)]
      twoTables).1.filter (·.1 = 1) =
        (runInTurn (fun table : Fin 2 => ⟨table⟩) [(1, printRow)] twoTables).1 := by
  obtain ⟨hrun, hturns⟩ := runs_are_local
  obtain ⟨hspared, -⟩ := hrun clearRow ⟨0⟩ twoTables
  have hhas : twoTables.heap.Has ⟨.lists, 1⟩ := by
    rw [Heap.Has]
    decide
  have hunreached : ¬ twoTables.heap.Reaches ⟨.scopes, (0 : Fin 2)⟩ ⟨.lists, 1⟩ := by
    intro hreach
    exact absurd (mem_partsOfTable hreach) (by decide)
  refine ⟨keepsApart_twoTables, ?_, ?_, ?_⟩
  · simp only [Program.run, clearRow, executeAll, execute, evaluate]
    with_unfolding_all rfl
  · exact hspared ⟨.lists, 1⟩ hhas hunreached
  · exact (hturns (Fin 2) _ twoTables keepsApart_twoTables _).2 1

end TreeScript
