import TreeScript.Machine
import TreeScript.Proofs.Outcome

/-!
# Looking names up and setting them

From every scope a chain of scopes leads outwards. It is finite and never comes back to a scope,
because a scope lies inside an earlier one. Three walks go along the chain: one reads a name, one
writes it and one finds the scope that binds it. All of them stop at the first scope of the chain
that binds the name, so they agree. Setting a variable is refused in two cases, which leave
everything as it was; in all others it writes one slot of one scope, and only look-ups that end at
that slot can tell.
-/

namespace TreeScript

namespace Scopes

/-- The scope has been made. -/
def Has (scopes : Scopes) (scope : ScopeId) : Prop := scope.index < scopes.frames.size

instance (scopes : Scopes) (scope : ScopeId) : Decidable (scopes.Has scope) :=
  inferInstanceAs (Decidable (scope.index < scopes.frames.size))

/-- What a scope that has been made lies inside of, if anything. -/
def outer? (scopes : Scopes) (scope : ScopeId) : Option (Option ScopeId) :=
  (scopes.frame? scope).map (·.outer)

/-- Whether a scope itself binds a name. -/
def binds (scopes : Scopes) (name : String) (scope : ScopeId) : Bool :=
  (scopes.own? scope name).isSome

/-- The scopes from one outwards, up to an outermost one. -/
inductive Chain (scopes : Scopes) : ScopeId → List ScopeId → Prop
  | outermost {scope : ScopeId} : scopes.outer? scope = some none → Chain scopes scope [scope]
  | inside {scope outer : ScopeId} {rest : List ScopeId} :
      scopes.outer? scope = some (some outer) → Chain scopes outer rest →
      Chain scopes scope (scope :: rest)

/-- The scope in which setting a variable writes: a new binding goes into the scope itself, and
any other to where the name is bound nearest, if it is bound at all. -/
def slot (scopes : Scopes) (scope : ScopeId) (name : String) (policy : Policy)
    (declaration : Bool) : ScopeId :=
  match policy, declaration with
  | .cannotExist, _ => scope
  | .unconstrained, true => scope
  | .unconstrained, false => (scopes.holder? scope name).getD scope
  | .mustExist, _ => (scopes.holder? scope name).getD scope

/-- Why setting a variable is refused, if it is. -/
def refusal? (scopes : Scopes) (scope : ScopeId) (name : String) : Policy → Option Fault
  | .cannotExist => if scopes.binds name scope then some (.alreadyDeclared name) else none
  | .mustExist => if scopes.holder? scope name = none then some (.undefinedName name) else none
  | .unconstrained => none

/-- Of all slots of all scopes one has got a value, whether or not it was there before. No scope
has been made or moved. -/
structure WritesOnly (before after : Scopes) (slot : ScopeId) (name : String) (value : Value) :
    Prop where
  written : after.own? slot name = some value
  others : ∀ scope other, ¬ (scope = slot ∧ other = name) →
    after.own? scope other = before.own? scope other
  outer : ∀ scope, after.outer? scope = before.outer? scope

variable {scopes after : Scopes} {scope slot : ScopeId} {frame : Frame} {chain : List ScopeId}
  {name : String} {value : Value} {policy : Policy} {declaration : Bool}

/-- A scope that is there has a frame. -/
theorem frame?_of_has (h : scopes.Has scope) : ∃ frame, scopes.frame? scope = some frame :=
  ⟨_, Array.getElem?_eq_getElem h⟩

/-- One that is not has none. -/
theorem frame?_of_not_has (h : ¬ scopes.Has scope) : scopes.frame? scope = none :=
  Array.getElem?_eq_none (Nat.le_of_not_lt h)

/-- Every scope lies somewhere. -/
theorem has_iff : scopes.Has scope ↔ scopes.outer? scope ≠ none := by
  by_cases h : scopes.Has scope
  · obtain ⟨frame, hframe⟩ := frame?_of_has h
    simp [h, outer?, hframe]
  · simp [h, outer?, frame?_of_not_has h]

/-! ## Chains -/

/-- A scope lies inside one that was made before it. -/
theorem index_lt_of_outer? {outer : ScopeId} (h : scopes.outer? scope = some (some outer)) :
    outer.index < scope.index := by
  obtain ⟨frame, hframe, houter⟩ := Option.map_eq_some_iff.mp h
  exact scopes.outer_lt scope.index frame hframe outer houter

/-- Going outwards from a scope leads to an outermost one. -/
theorem exists_chain (h : scopes.Has scope) : ∃ chain, scopes.Chain scope chain := by
  obtain ⟨index⟩ := scope
  induction index using Nat.strongRecOn with
  | ind index ih =>
    cases houter : scopes.outer? ⟨index⟩ with
    | none => exact absurd houter (has_iff.mp h)
    | some around =>
      cases around with
      | none => exact ⟨_, .outermost houter⟩
      | some outer =>
        have hlt := index_lt_of_outer? houter
        obtain ⟨rest, hrest⟩ := ih outer.index hlt (Nat.lt_trans hlt h)
        exact ⟨_, .inside houter hrest⟩

/-- There is one chain. -/
theorem Chain.unique (h : scopes.Chain scope chain) {other : List ScopeId}
    (hother : scopes.Chain scope other) : other = chain := by
  induction h generalizing other with
  | outermost houter =>
    cases hother with
    | outermost => rfl
    | inside houter' _ => simp [houter] at houter'
  | inside houter _ ih =>
    cases hother with
    | outermost houter' => simp [houter] at houter'
    | inside houter' hrest =>
      rw [houter, Option.some.injEq, Option.some.injEq] at houter'
      subst houter'
      rw [ih hrest]

/-- Chains lead to earlier scopes. -/
theorem Chain.index_le (h : scopes.Chain scope chain) :
    ∀ other ∈ chain, other.index ≤ scope.index := by
  induction h with
  | outermost => simp
  | inside houter _ ih =>
    have hlt := index_lt_of_outer? houter
    intro other hother
    rcases List.mem_cons.mp hother with rfl | hrest
    · exact Nat.le_refl _
    · exact Nat.le_trans (ih other hrest) (Nat.le_of_lt hlt)

/-- No chain comes back to a scope. -/
theorem Chain.nodup (h : scopes.Chain scope chain) : chain.Nodup := by
  induction h with
  | outermost => simp
  | @inside scope outer rest houter hrest ih =>
    refine List.nodup_cons.mpr ⟨?_, ih⟩
    intro hmem
    exact absurd (hrest.index_le scope hmem) (Nat.not_le_of_lt (index_lt_of_outer? houter))

/-- A chain begins with the scope it leads away from. -/
theorem Chain.eq_cons (h : scopes.Chain scope chain) : ∃ rest, chain = scope :: rest := by
  cases h with
  | outermost => exact ⟨[], rfl⟩
  | inside => exact ⟨_, rfl⟩

/-- Writing leaves chains as they are. -/
theorem WritesOnly.chain_after (h : WritesOnly scopes after slot name value)
    (hchain : scopes.Chain scope chain) : after.Chain scope chain := by
  induction hchain with
  | outermost houter => exact .outermost ((h.outer _).trans houter)
  | inside houter _ ih => exact .inside ((h.outer _).trans houter) ih

/-! ## Look-ups -/

/-- A scope binds what its frame does. -/
theorem binds_of_frame? (h : scopes.frame? scope = some frame) (name : String) :
    scopes.binds name scope = frame.bindings.contains name := by
  simp [binds, own?, h, Dictionary.contains]

/-- What a scope is known to lie inside of is the outer scope of its frame. -/
theorem exists_frame_of_outer? {outer : Option ScopeId} (h : scopes.outer? scope = some outer)
    (name : String) :
    ∃ frame, scopes.frames[scope.index]? = some frame ∧ frame.outer = outer ∧
      scopes.own? scope name = frame.bindings.get? name ∧
      scopes.binds name scope = frame.bindings.contains name := by
  obtain ⟨frame, hframe, houter⟩ := Option.map_eq_some_iff.mp h
  refine ⟨frame, hframe, houter, ?_, binds_of_frame? hframe name⟩
  rw [own?, hframe]
  rfl

section

variable {outer : Option ScopeId} (houter : scopes.outer? scope = some outer)

include houter

/-- One step of looking for the scope that binds a name. -/
theorem holder?_of_outer? (name : String) :
    scopes.holder? scope name =
      if scopes.binds name scope then some scope
      else outer.bind fun outer => scopes.holder? outer name := by
  obtain ⟨frame, hframe, rfl, -, hbinds⟩ := exists_frame_of_outer? houter name
  rw [holder?, hbinds]
  split
  case h_1 hnone => simp [hnone] at hframe
  case h_2 found hfound =>
    obtain rfl := Option.some.inj (hfound.symm.trans hframe)
    congr 1
    split <;> simp_all

/-- One step of reading a name. -/
theorem get?_of_outer? (name : String) :
    scopes.get? scope name =
      (scopes.own? scope name).or (outer.bind fun outer => scopes.get? outer name) := by
  obtain ⟨frame, hframe, rfl, hown, -⟩ := exists_frame_of_outer? houter name
  rw [get?, hown]
  split
  case h_1 hnone => simp [hnone] at hframe
  case h_2 found hfound =>
    obtain rfl := Option.some.inj (hfound.symm.trans hframe)
    cases found.bindings.get? name with
    | some value => rfl
    | none =>
      simp only [Option.none_or]
      split <;> simp_all

/-- One step of writing a name. -/
theorem assign?_of_outer? (name : String) (value : Value) :
    scopes.assign? scope name value =
      if scopes.binds name scope then some (scopes.define scope name value)
      else outer.bind fun outer => scopes.assign? outer name value := by
  obtain ⟨frame, hframe, rfl, -, hbinds⟩ := exists_frame_of_outer? houter name
  rw [assign?, hbinds]
  split
  case h_1 hnone => simp [hnone] at hframe
  case h_2 found hfound =>
    obtain rfl := Option.some.inj (hfound.symm.trans hframe)
    congr 1
    split <;> simp_all

end

section

variable (hscope : ¬ scopes.Has scope)

include hscope

/-- From a scope that has not been made, no scope is found. -/
theorem holder?_of_not_has (name : String) : scopes.holder? scope name = none := by
  have hnone : scopes.frames[scope.index]? = none := frame?_of_not_has hscope
  rw [holder?]
  split <;> simp_all

/-- In a scope that has not been made, no name means anything. -/
theorem get?_of_not_has (name : String) : scopes.get? scope name = none := by
  have hnone : scopes.frames[scope.index]? = none := frame?_of_not_has hscope
  rw [get?]
  split <;> simp_all

/-- From a scope that has not been made, nothing is written. -/
theorem assign?_of_not_has (name : String) (value : Value) :
    scopes.assign? scope name value = none := by
  have hnone : scopes.frames[scope.index]? = none := frame?_of_not_has hscope
  rw [assign?]
  split <;> simp_all

end

/-- The scope that binds a name is the first one of the chain that does. -/
theorem Chain.holder?_eq (h : scopes.Chain scope chain) (name : String) :
    scopes.holder? scope name = chain.find? (scopes.binds name) := by
  induction h with
  | outermost houter =>
    rw [holder?_of_outer? houter, List.find?_singleton]
    rfl
  | @inside scope _ _ houter _ ih =>
    rw [holder?_of_outer? houter, Option.bind_some, ih, List.find?_cons]
    cases scopes.binds name scope <;> rfl

/-- A name means what the first scope of the chain that binds it binds it to. -/
theorem Chain.get?_eq (h : scopes.Chain scope chain) (name : String) :
    scopes.get? scope name = chain.findSome? (scopes.own? · name) := by
  induction h with
  | @outermost scope houter =>
    rw [get?_of_outer? houter, Option.bind_none, List.findSome?_cons]
    cases scopes.own? scope name <;> rfl
  | @inside scope _ _ houter _ ih =>
    rw [get?_of_outer? houter, Option.bind_some, ih, List.findSome?_cons]
    cases scopes.own? scope name <;> rfl

/-- A name is written in the first scope of the chain that binds it. -/
theorem Chain.assign?_eq (h : scopes.Chain scope chain) (name : String) (value : Value) :
    scopes.assign? scope name value =
      (chain.find? (scopes.binds name)).map (scopes.define · name value) := by
  induction h with
  | @outermost scope houter =>
    rw [assign?_of_outer? houter, Option.bind_none, List.find?_singleton]
    cases scopes.binds name scope <;> rfl
  | @inside scope _ _ houter _ ih =>
    rw [assign?_of_outer? houter, Option.bind_some, ih, List.find?_cons]
    cases scopes.binds name scope <;> rfl

/-- Reading a name gives its value in the scope that is found to bind it. -/
theorem get?_eq_own? (scopes : Scopes) (scope : ScopeId) (name : String) :
    scopes.get? scope name = (scopes.holder? scope name).bind (scopes.own? · name) := by
  by_cases hscope : scopes.Has scope
  · obtain ⟨chain, hchain⟩ := exists_chain hscope
    rw [hchain.get?_eq, hchain.holder?_eq]
    clear hchain
    induction chain with
    | nil => rfl
    | cons head rest ih =>
      rw [List.find?_cons, List.findSome?_cons]
      cases hown : scopes.own? head name with
      | none => simpa [binds, hown] using ih
      | some value => simp [binds, hown]
  · rw [get?_of_not_has hscope, holder?_of_not_has hscope]
    rfl

/-- Writing a name binds it anew in the scope that is found to bind it. -/
theorem assign?_eq_define (scopes : Scopes) (scope : ScopeId) (name : String) (value : Value) :
    scopes.assign? scope name value =
      (scopes.holder? scope name).map (scopes.define · name value) := by
  by_cases hscope : scopes.Has scope
  · obtain ⟨chain, hchain⟩ := exists_chain hscope
    rw [hchain.assign?_eq, hchain.holder?_eq]
  · rw [assign?_of_not_has hscope, holder?_of_not_has hscope]
    rfl

/-- To look for a binding first changes nothing about writing it. -/
theorem tryAssign?_eq_assign? (scopes : Scopes) (scope : ScopeId) (name : String) (value : Value) :
    scopes.tryAssign? scope name value = scopes.assign? scope name value := by
  rw [tryAssign?, assign?_eq_define]
  cases scopes.holder? scope name <;> rfl

/-- The scope found for a name binds it. -/
theorem binds_of_holder? (h : scopes.holder? scope name = some slot) :
    scopes.binds name slot = true := by
  by_cases hscope : scopes.Has scope
  · obtain ⟨chain, hchain⟩ := exists_chain hscope
    rw [hchain.holder?_eq] at h
    exact List.find?_some h
  · rw [holder?_of_not_has hscope] at h
    cases h

/-! ## Writing -/

/-- Binding a name writes one slot, if the scope has been made. -/
theorem own?_define (scopes : Scopes) (slot : ScopeId) (name : String) (value : Value)
    (scope : ScopeId) (other : String) :
    (scopes.define slot name value).own? scope other =
      if scope = slot ∧ other = name ∧ scopes.Has slot then some value
      else scopes.own? scope other := by
  unfold own?
  rw [frame?_define]
  by_cases hscope : scope = slot
  · subst hscope
    by_cases hhas : scopes.Has scope
    · obtain ⟨frame, hframe⟩ := frame?_of_has hhas
      simp [hframe, hhas, Dictionary.get?_insert]
    · simp [frame?_of_not_has hhas, hhas]
  · simp [hscope]

/-- A definition moves no scope. -/
theorem outer?_define (scopes : Scopes) (slot : ScopeId) (name : String) (value : Value)
    (scope : ScopeId) :
    (scopes.define slot name value).outer? scope = scopes.outer? scope := by
  unfold outer?
  rw [frame?_define]
  split
  · rw [Option.map_map]
    rfl
  · rfl

/-- A definition writes its slot only. -/
theorem writesOnly_define (h : scopes.Has slot) (name : String) (value : Value) :
    WritesOnly scopes (scopes.define slot name value) slot name value where
  written := by rw [own?_define, if_pos ⟨rfl, rfl, h⟩]
  others scope other hother := by
    rw [own?_define, if_neg]
    exact fun hslot => hother ⟨hslot.1, hslot.2.1⟩
  outer := scopes.outer?_define slot name value

/-- A look-up that does not end at the slot that was written gives what it gave before. -/
theorem WritesOnly.get?_eq (h : WritesOnly scopes after slot name value) {other : String}
    (hapart : other ≠ name ∨ after.holder? scope other ≠ some slot) :
    after.get? scope other = scopes.get? scope other := by
  by_cases hscope : scopes.Has scope
  · obtain ⟨chain, hchain⟩ := exists_chain hscope
    have hafter := h.chain_after hchain
    rw [hafter.holder?_eq] at hapart
    rw [hchain.get?_eq, hafter.get?_eq]
    clear hchain hafter
    induction chain with
    | nil => rfl
    | cons head rest ih =>
      by_cases hslot : head = slot ∧ other = name
      · -- The slot itself binds the name now, so the look-up ends there.
        obtain ⟨rfl, rfl⟩ := hslot
        have hbinds : after.binds other head = true := by simp [binds, h.written]
        rw [List.find?_cons, hbinds] at hapart
        simp at hapart
      · have hown := h.others head other hslot
        rw [List.findSome?_cons, List.findSome?_cons, hown]
        cases hbound : scopes.own? head other with
        | some value => rfl
        | none =>
          have hbinds : after.binds other head = false := by simp [binds, hown, hbound]
          rw [List.find?_cons, hbinds] at hapart
          exact ih hapart
  · have hafter : ¬ after.Has scope := by
      rwa [has_iff, h.outer, ← has_iff]
    rw [get?_of_not_has hscope, get?_of_not_has hafter]

/-- A look-up from a scope finds what was written in the scope itself, or where the name was bound
nearest. -/
theorem WritesOnly.get?_slot (h : WritesOnly scopes after slot name value)
    (hscope : scopes.Has scope)
    (hslot : slot = scope ∨ scopes.holder? scope name = some slot) :
    after.get? scope name = some value := by
  obtain ⟨chain, hchain⟩ := exists_chain hscope
  rw [(h.chain_after hchain).get?_eq]
  rcases hslot with rfl | hholder
  · obtain ⟨rest, rfl⟩ := hchain.eq_cons
    rw [List.findSome?_cons, h.written]
  · rw [hchain.holder?_eq] at hholder
    clear hchain
    induction chain with
    | nil => cases hholder
    | cons head rest ih =>
      rw [List.findSome?_cons]
      by_cases hhead : head = slot
      · rw [hhead, h.written]
      · have hown := h.others head name fun hboth => hhead hboth.1
        rw [List.find?_cons] at hholder
        cases hbinds : scopes.binds name head with
        | true =>
          rw [hbinds, Option.some.injEq] at hholder
          exact absurd hholder hhead
        | false =>
          rw [hbinds] at hholder
          have hnone : scopes.own? head name = none := by simpa [binds] using hbinds
          rw [hown, hnone]
          exact ih hholder

/-! ## Setting variables -/

/-- Setting a variable writes its slot unless it is refused. -/
theorem bind_eq (scopes : Scopes) (scope : ScopeId) (name : String) (value : Value)
    (policy : Policy) (declaration : Bool) :
    scopes.bind scope name value policy declaration =
      match scopes.refusal? scope name policy with
      | some fault => .error fault
      | none => .ok (scopes.define (scopes.slot scope name policy declaration) name value) := by
  cases policy with
  | cannotExist =>
    unfold bind refusal? binds
    by_cases hown : (scopes.own? scope name).isSome
    · simp only [if_pos hown]
      rfl
    · simp only [if_neg hown]
      rfl
  | mustExist =>
    unfold bind refusal? slot
    rw [assign?_eq_define]
    cases scopes.holder? scope name <;> rfl
  | unconstrained =>
    unfold bind refusal? slot
    rw [tryAssign?_eq_assign?, assign?_eq_define]
    cases declaration <;> cases scopes.holder? scope name <;> rfl

/-- The slot of a variable is in the scope itself or where its name is bound nearest. -/
theorem slot_cases (scopes : Scopes) (scope : ScopeId) (name : String) (policy : Policy)
    (declaration : Bool) :
    scopes.slot scope name policy declaration = scope ∨
      scopes.holder? scope name = some (scopes.slot scope name policy declaration) := by
  unfold slot
  cases policy with
  | cannotExist => exact .inl rfl
  | mustExist | unconstrained =>
    cases declaration <;> cases scopes.holder? scope name <;> simp

/-- The slot is there. -/
theorem has_slot (hscope : scopes.Has scope) (name : String) (policy : Policy)
    (declaration : Bool) : scopes.Has (scopes.slot scope name policy declaration) := by
  rcases scopes.slot_cases scope name policy declaration with hslot | hslot
  · rwa [hslot]
  · have hbinds := binds_of_holder? hslot
    generalize scopes.slot scope name policy declaration = slot at hbinds ⊢
    by_cases hhas : scopes.Has slot
    · exact hhas
    · simp [binds, own?, frame?_of_not_has hhas] at hbinds

/-- Setting a variable is refused if the scope itself binds the name and must not, or if no scope
of the chain does and one must. -/
theorem bind_eq_error_iff (hchain : scopes.Chain scope chain) {fault : Fault} :
    scopes.bind scope name value policy declaration = .error fault ↔
      policy = .cannotExist ∧ scopes.binds name scope = true ∧ fault = .alreadyDeclared name ∨
      policy = .mustExist ∧ (∀ other ∈ chain, scopes.binds name other = false) ∧
        fault = .undefinedName name := by
  have hrefused : scopes.bind scope name value policy declaration = .error fault ↔
      scopes.refusal? scope name policy = some fault := by
    rw [bind_eq]
    cases scopes.refusal? scope name policy <;> simp
  rw [hrefused]
  cases policy with
  | cannotExist => simp [refusal?, @eq_comm Fault fault]
  | mustExist => simp [refusal?, hchain.holder?_eq, @eq_comm Fault fault]
  | unconstrained => simp [refusal?]

/-- Setting a variable that is not refused writes its slot and nothing else. -/
theorem writesOnly_of_bind (hscope : scopes.Has scope)
    (h : scopes.bind scope name value policy declaration = .ok after) :
    WritesOnly scopes after (scopes.slot scope name policy declaration) name value := by
  rw [bind_eq] at h
  split at h
  · cases h
  · cases h
    exact writesOnly_define (has_slot hscope name policy declaration) name value

/-- A refusal leaves the machine as it is. -/
theorem bindName_of_error {machine : Machine} {fault : Fault}
    (h : machine.heap.scopes.bind scope name value policy declaration = .error fault) :
    Evaluation.bindName scope name value policy declaration machine = (.error fault, machine) := by
  unfold Evaluation.bindName Evaluation.update
  dsimp only
  rw [h]
  rfl

/-- In every store, the scopes from a scope outwards form one finite chain without repetitions.
Looking a name up, finding the scope that binds it and assigning to it go along the chain to the
nearest scope that binds the name. Setting a variable is refused exactly if the scope binds the
name and must not or no scope of the chain does and one must, and then nothing is changed. If it
is not refused, the name has the new value there, one slot is written or made, and all other names
and all look-ups that do not end at that slot are as before. -/
theorem resolves_along_chain (scopes : Scopes) {scope : ScopeId} (hscope : scopes.Has scope) :
    ∃ chain : List ScopeId,
      scopes.Chain scope chain ∧ (∀ other, scopes.Chain scope other → other = chain) ∧
      chain.Nodup ∧
      (∀ name,
        scopes.get? scope name = chain.findSome? (scopes.own? · name) ∧
        scopes.holder? scope name = chain.find? (scopes.binds name) ∧
        ∀ value, scopes.assign? scope name value =
          (chain.find? (scopes.binds name)).map (scopes.define · name value)) ∧
      ∀ name value policy declaration,
        (∀ fault, scopes.bind scope name value policy declaration = .error fault ↔
          policy = .cannotExist ∧ scopes.binds name scope = true ∧ fault = .alreadyDeclared name ∨
          policy = .mustExist ∧ (∀ other ∈ chain, scopes.binds name other = false) ∧
            fault = .undefinedName name) ∧
        (∀ (machine : Machine) (fault : Fault), machine.heap.scopes = scopes →
          scopes.bind scope name value policy declaration = .error fault →
          Evaluation.bindName scope name value policy declaration machine =
            (.error fault, machine)) ∧
        ∀ after, scopes.bind scope name value policy declaration = .ok after →
          ∃ slot,
            slot = (if policy = .cannotExist ∨ policy = .unconstrained ∧ declaration = true
              then scope else (chain.find? (scopes.binds name)).getD scope) ∧
            WritesOnly scopes after slot name value ∧
            after.get? scope name = some value ∧
            (∀ origin other, other ≠ name → after.get? origin other = scopes.get? origin other) ∧
            ∀ origin, after.holder? origin name ≠ some slot →
              after.get? origin name = scopes.get? origin name := by
  obtain ⟨chain, hchain⟩ := exists_chain hscope
  refine ⟨chain, hchain, fun _ => hchain.unique, hchain.nodup, ?_, ?_⟩
  · intro name
    exact ⟨hchain.get?_eq name, hchain.holder?_eq name, hchain.assign?_eq name⟩
  · intro name value policy declaration
    refine ⟨fun fault => bind_eq_error_iff hchain, ?_, ?_⟩
    · rintro machine fault rfl hfault
      exact bindName_of_error hfault
    · intro after hafter
      have hwrites := writesOnly_of_bind hscope hafter
      refine ⟨_, ?_, hwrites, ?_, ?_, ?_⟩
      · rw [← hchain.holder?_eq name]
        cases policy <;> cases declaration <;> rfl
      · exact hwrites.get?_slot hscope (scopes.slot_cases scope name policy declaration)
      · exact fun origin other hother => hwrites.get?_eq (.inl hother)
      · exact fun origin hholder => hwrites.get?_eq (.inr hholder)

/-- A scope that binds a name, and a scope inside it. -/
def nested : Scopes := (Scopes.empty.new.2.child ⟨0⟩).2.define ⟨0⟩ "x" (.bool true)

/-- From the inner scope, an assignment writes the name in the outer one, a declaration makes a
name of its own, and a name that is bound nowhere cannot be updated. -/
theorem resolves_along_chain_nested :
    nested.Has ⟨1⟩ ∧ nested.Chain ⟨1⟩ [⟨1⟩, ⟨0⟩] ∧
      (∃ after, nested.bind ⟨1⟩ "x" .null .unconstrained false = .ok after ∧
        WritesOnly nested after ⟨0⟩ "x" .null) ∧
      (∃ after, nested.bind ⟨1⟩ "x" .null .cannotExist true = .ok after ∧
        WritesOnly nested after ⟨1⟩ "x" .null ∧ after.get? ⟨0⟩ "x" = nested.get? ⟨0⟩ "x") ∧
      nested.bind ⟨1⟩ "y" .null .mustExist false = .error (.undefinedName "y") := by
  have hhas : nested.Has ⟨1⟩ := by decide
  have hchain : nested.Chain ⟨1⟩ [⟨1⟩, ⟨0⟩] := .inside rfl (.outermost rfl)
  obtain ⟨chain, -, hunique, -, -, hbind⟩ := resolves_along_chain nested hhas
  obtain rfl := hunique _ hchain
  refine ⟨hhas, hchain, ?_, ?_, ?_⟩
  · obtain ⟨slot, rfl, hwrites, -⟩ := (hbind "x" .null .unconstrained false).2.2 _ rfl
    exact ⟨_, rfl, hwrites⟩
  · obtain ⟨slot, rfl, hwrites, -, -, hget⟩ := (hbind "x" .null .cannotExist true).2.2 _ rfl
    have houtermost : nested.Chain ⟨0⟩ [⟨0⟩] := .outermost rfl
    refine ⟨_, rfl, hwrites, hget ⟨0⟩ ?_⟩
    rw [(hwrites.chain_after houtermost).holder?_eq]
    decide
  · exact ((hbind "y" .null .mustExist false).1 _).mpr (.inr ⟨rfl, by decide, rfl⟩)

end Scopes

end TreeScript
