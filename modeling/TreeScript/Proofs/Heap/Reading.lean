import TreeScript.Proofs.Heap.Matching
import TreeScript.Proofs.Scope.Binding

/-!
# What is read from heaps that are alike

Whatever a program can find out from a heap, it finds out the same from a heap that is alike:
operators give values that are alike, names and members lead to values that are alike, and the
texts of values are equal. Identities are compared for equality only, which a matching keeps, and
no function of the heap tells one list, object or function from another in any other way.
-/

namespace TreeScript

variable {matching : Matching}

/-- Outcomes that agree: results in a relation, or the same fault. -/
inductive Agree {α β : Type} (related : α → β → Prop) : Except Fault α → Except Fault β → Prop
  | ok {result : α} {result' : β} :
      related result result' → Agree related (.ok result) (.ok result')
  | error (fault : Fault) : Agree related (.error fault) (.error fault)

/-- An outcome that can only be plain data agrees with itself. -/
theorem agree_plain {check : Except Fault Value}
    (h : ∀ value, check = .ok value → value.place? = none) :
    Agree (Value.Matches matching) check check := by
  cases check with
  | error fault => exact .error fault
  | ok value => exact .ok (.plain (h value rfl))

attribute [ext] ListId ObjectId FunctionId

/-! ## Operators on values -/

namespace Value

/-- The value without the identity that it may be. -/
def anonymous : Value → Value
  | list _ => list ⟨0⟩
  | object _ => object ⟨0⟩
  | function _ => function ⟨0⟩
  | plain => plain

variable {value value' left left' right right' : Value}

/-- Matching values differ in their places only. -/
theorem Matches.anonymous_eq (h : value.Matches matching value') :
    value.anonymous = value'.anonymous := by
  cases h <;> rfl

/-- The type does not depend on the place. -/
theorem type_anonymous (value : Value) : value.anonymous.type = value.type := by
  cases value <;> rfl

/-- Truth does not depend on the place. -/
theorem isTruthy_anonymous (value : Value) : value.anonymous.isTruthy = value.isTruthy := by
  cases value <;> rfl

/-- To be a string does not depend on the place. -/
theorem isString_anonymous (value : Value) : value.anonymous.isString = value.isString := by
  cases value <;> rfl

/-- Unary operators do not depend on the place. -/
theorem applyUnary_anonymous (operator : UnaryOperator) (value : Value) :
    applyUnary operator value.anonymous = applyUnary operator value := by
  cases value <;> cases operator <;> rfl

/-- Arithmetic does not depend on the place. -/
theorem arithmetic_anonymous (operator : BinaryOperator)
    (onInts : Int64 → Int64 → Except Fault Value) (onFloats : Float → Float → Float)
    (left right : Value) :
    arithmetic operator onInts onFloats left.anonymous right.anonymous =
      arithmetic operator onInts onFloats left right := by
  cases left <;> cases right <;> rfl

/-- Bitwise operators do not depend on the place. -/
theorem bitwise_anonymous (operator : BinaryOperator) (onInts : Int64 → Int64 → Int64)
    (left right : Value) :
    bitwise operator onInts left.anonymous right.anonymous =
      bitwise operator onInts left right := by
  cases left <;> cases right <;> rfl

/-- Comparisons do not depend on the place. -/
theorem ordered_anonymous (operator : BinaryOperator) (test : Ordering → Bool)
    (left right : Value) :
    ordered operator test left.anonymous right.anonymous = ordered operator test left right := by
  cases left <;> cases right <;> rfl

namespace Matches

/-- Matching values have one type. -/
theorem type_eq (h : value.Matches matching value') : value.type = value'.type := by
  rw [← type_anonymous, h.anonymous_eq, type_anonymous]

/-- Matching values are true or false alike. -/
theorem isTruthy_eq (h : value.Matches matching value') : value.isTruthy = value'.isTruthy := by
  rw [← isTruthy_anonymous, h.anonymous_eq, isTruthy_anonymous]

/-- Matching values are strings or not alike. -/
theorem isString_eq (h : value.Matches matching value') : value.isString = value'.isString := by
  rw [← isString_anonymous, h.anonymous_eq, isString_anonymous]

/-- Identities are equal where their counterparts are. -/
theorem same_eq (hleft : left.Matches matching left') (hright : right.Matches matching right') :
    left.same right = left'.same right' := by
  cases hleft with
  | plain hplain =>
    cases hright with
    | plain => rfl
    | list | object | function => cases left <;> first | rfl | cases hplain
  | @list id id' hid =>
    cases hright with
    | plain hplain => cases right <;> first | rfl | cases hplain
    | @list next next' hnext =>
      have hiff : id = next ↔ id' = next' := by
        simpa [ListId.ext_iff] using matching.eq_iff hid hnext
      rwa [same, same, Bool.eq_iff_iff, beq_iff_eq, beq_iff_eq]
    | object | function => rfl
  | @object id id' hid =>
    cases hright with
    | plain hplain => cases right <;> first | rfl | cases hplain
    | @object next next' hnext =>
      have hiff : id = next ↔ id' = next' := by
        simpa [ObjectId.ext_iff] using matching.eq_iff hid hnext
      rwa [same, same, Bool.eq_iff_iff, beq_iff_eq, beq_iff_eq]
    | list | function => rfl
  | @function id id' hid =>
    cases hright with
    | plain hplain => cases right <;> first | rfl | cases hplain
    | @function next next' hnext =>
      have hiff : id = next ↔ id' = next' := by
        simpa [FunctionId.ext_iff] using matching.eq_iff hid hnext
      rwa [same, same, Bool.eq_iff_iff, beq_iff_eq, beq_iff_eq]
    | list | object => rfl

end Matches

/-- A unary operator gives no place. -/
theorem plain_applyUnary {operator : UnaryOperator} {operand : Value}
    (h : applyUnary operator operand = .ok value) : value.place? = none := by
  unfold applyUnary at h
  split at h <;> cases h <;> rfl

/-- Arithmetic gives no place. -/
theorem plain_arithmetic {operator : BinaryOperator} {onInts : Int64 → Int64 → Except Fault Value}
    {onFloats : Float → Float → Float}
    (honInts : ∀ a b value, onInts a b = .ok value → value.place? = none)
    (h : arithmetic operator onInts onFloats left right = .ok value) : value.place? = none := by
  unfold arithmetic at h
  split at h
  · exact honInts _ _ _ h
  · split at h <;> cases h
    rfl

/-- A quotient is no place. -/
theorem plain_divideInts {a b : Int64} (h : divideInts a b = .ok value) : value.place? = none := by
  unfold divideInts at h
  split at h
  · cases h
  · split at h <;> cases h <;> rfl

/-- A remainder is no place. -/
theorem plain_remainderOfInts {a b : Int64} (h : remainderOfInts a b = .ok value) :
    value.place? = none := by
  unfold remainderOfInts at h
  split at h <;> cases h
  rfl

/-- A power is no place. -/
theorem plain_powerOfInts (base exponent : Int64) :
    (powerOfInts base exponent).place? = none := by
  unfold powerOfInts
  dsimp only
  split <;> rfl

/-- Unary operators agree on matching values. -/
theorem agree_applyUnary (operator : UnaryOperator) (h : value.Matches matching value') :
    Agree (Value.Matches matching) (applyUnary operator value) (applyUnary operator value') := by
  rw [← applyUnary_anonymous, h.anonymous_eq, applyUnary_anonymous]
  exact agree_plain fun _ => plain_applyUnary

/-- Arithmetic agrees on matching values. -/
theorem agree_arithmetic (operator : BinaryOperator) {onInts : Int64 → Int64 → Except Fault Value}
    (honInts : ∀ a b value, onInts a b = .ok value → value.place? = none)
    (onFloats : Float → Float → Float) (hleft : left.Matches matching left')
    (hright : right.Matches matching right') :
    Agree (Value.Matches matching) (arithmetic operator onInts onFloats left right)
      (arithmetic operator onInts onFloats left' right') := by
  rw [← arithmetic_anonymous, hleft.anonymous_eq, hright.anonymous_eq, arithmetic_anonymous]
  exact agree_plain fun _ => plain_arithmetic honInts

/-- Bitwise operators agree on matching values. -/
theorem agree_bitwise (operator : BinaryOperator) (onInts : Int64 → Int64 → Int64)
    (hleft : left.Matches matching left') (hright : right.Matches matching right') :
    Agree (Value.Matches matching) (bitwise operator onInts left right)
      (bitwise operator onInts left' right') := by
  rw [← bitwise_anonymous, hleft.anonymous_eq, hright.anonymous_eq, bitwise_anonymous]
  refine agree_plain fun value h => ?_
  unfold bitwise at h
  split at h <;> cases h
  rfl

/-- Comparisons agree on matching values. -/
theorem agree_ordered (operator : BinaryOperator) (test : Ordering → Bool)
    (hleft : left.Matches matching left') (hright : right.Matches matching right') :
    Agree (Value.Matches matching) (ordered operator test left right)
      (ordered operator test left' right') := by
  rw [← ordered_anonymous, hleft.anonymous_eq, hright.anonymous_eq, ordered_anonymous]
  refine agree_plain fun value h => ?_
  unfold ordered at h
  split at h <;> cases h
  rfl

end Value

/-! ## What stands at matched places -/

/-- Options that are related once mapped are related. -/
theorem rel_of_map {α β γ δ : Type} {related : γ → δ → Prop} {related' : α → β → Prop}
    {f : α → γ} {g : β → δ} {first : Option α} {second : Option β}
    (h : Option.Rel related (first.map f) (second.map g))
    (himp : ∀ {item item'}, related (f item) (g item') → related' item item') :
    Option.Rel related' first second := by
  cases first with
  | none =>
    cases second with
    | none => exact .none
    | some item' => cases h
  | some item =>
    cases second with
    | none => cases h
    | some item' =>
      cases h with
      | some hitem => exact .some (himp hitem)

/-- Related options with related defaults give related values. -/
theorem rel_getD {α β : Type} {related : α → β → Prop} {first : Option α} {second : Option β}
    (h : Option.Rel related first second) {default : α} {default' : β}
    (hdefault : related default default') :
    related (first.getD default) (second.getD default') := by
  cases h with
  | none => exact hdefault
  | some hitem => exact hitem

namespace Heap.Joined

variable {limit : Shelf → Nat} {heap other : Heap} (h : heap.Joined matching limit other)
include h

/-- Paired lists have matching elements. -/
theorem rel_lists {list list' : ListId}
    (hpair : matching.Pairs ⟨.lists, list.index⟩ ⟨.lists, list'.index⟩) :
    Option.Rel (fun values values' =>
        List.Forall₂ (Value.Matches matching) values.toList values'.toList)
      heap.lists[list.index]? other.lists[list'.index]? := by
  refine rel_of_map (h.contents hpair) fun hmatch => ?_
  cases hmatch with
  | items hvalues => exact hvalues

/-- Paired objects have matching properties. -/
theorem rel_objects {object object' : ObjectId}
    (hpair : matching.Pairs ⟨.objects, object.index⟩ ⟨.objects, object'.index⟩) :
    Option.Rel (Dictionary.Matches matching)
      heap.objects[object.index]? other.objects[object'.index]? := by
  refine rel_of_map (h.contents hpair) fun hmatch => ?_
  cases hmatch with
  | properties hentries => exact hentries

/-- Paired functions match. -/
theorem rel_callable? {function function' : FunctionId}
    (hpair : matching.Pairs ⟨.functions, function.index⟩ ⟨.functions, function'.index⟩) :
    Option.Rel (fun callable callable' =>
        (Content.callable callable).Matches matching (.callable callable'))
      (heap.callable? function) (other.callable? function') :=
  rel_of_map (h.contents hpair) id

/-- Paired scopes have matching frames. -/
theorem rel_frame? {scope scope' : ScopeId} (hpair : matching.Pairs scope.place scope'.place) :
    Option.Rel (fun frame frame' => (Content.frame frame).Matches matching (.frame frame'))
      (heap.scopes.frame? scope) (other.scopes.frame? scope') :=
  rel_of_map (h.contents hpair) id

/-- Paired lists, present or not, have matching elements. -/
theorem rel_items {list list' : ListId}
    (hpair : matching.Pairs ⟨.lists, list.index⟩ ⟨.lists, list'.index⟩) :
    List.Forall₂ (Value.Matches matching) (heap.items list).toList (other.items list').toList :=
  rel_getD (h.rel_lists hpair) .nil

/-- Paired objects, present or not, have matching properties. -/
theorem rel_properties {object object' : ObjectId}
    (hpair : matching.Pairs ⟨.objects, object.index⟩ ⟨.objects, object'.index⟩) :
    (heap.properties object).Matches matching (other.properties object') :=
  rel_getD (h.rel_objects hpair) (Dictionary.matches_empty matching)

/-- Paired lists have one length. -/
theorem size_items_eq {list list' : ListId}
    (hpair : matching.Pairs ⟨.lists, list.index⟩ ⟨.lists, list'.index⟩) :
    (heap.items list).size = (other.items list').size := by
  rw [← Array.length_toList, ← Array.length_toList]
  exact (h.rel_items hpair).length_eq

/-! ## Members and elements -/

variable {value value' index index' : Value}

/-- Matching values have one length or none. -/
theorem length?_eq (hvalue : value.Matches matching value') :
    heap.length? value = other.length? value' := by
  cases hvalue with
  | plain hplain => cases value <;> first | rfl | cases hplain
  | list hpair => exact congrArg some (h.size_items_eq hpair)
  | object hpair => exact congrArg some (h.rel_properties hpair).size_eq
  | function => rfl

/-- Members of matching values match. -/
theorem agree_getMember (hvalue : value.Matches matching value') (member : String) :
    Agree (Value.Matches matching) (heap.getMember value member)
      (other.getMember value' member) := by
  cases hvalue with
  | plain hplain =>
    cases value with
    | string text =>
      refine agree_plain fun result hresult => ?_
      cases hresult
      split <;> rfl
    | list | object | function => cases hplain
    | _ => exact .error _
  | list hpair =>
    refine .ok ?_
    rw [h.size_items_eq hpair]
    split <;> exact .plain rfl
  | object hpair => exact .ok (rel_getD ((h.rel_properties hpair).get? member) (.plain rfl))
  | function => exact .error _

/-- Elements at one position of lists that are alike. -/
theorem rel_item {list list' : ListId}
    (hpair : matching.Pairs ⟨.lists, list.index⟩ ⟨.lists, list'.index⟩) (position : Nat) :
    Option.Rel (Value.Matches matching) (heap.items list)[position]?
      (other.items list')[position]? := by
  have hitems := h.rel_items hpair
  rw [← Array.getElem?_toList, ← Array.getElem?_toList]
  generalize (heap.items list).toList = values at hitems
  generalize (other.items list').toList = values' at hitems
  induction hitems generalizing position with
  | nil => exact .none
  | cons hvalue _ ih =>
    cases position with
    | zero => exact .some hvalue
    | succ position => exact ih position

/-- Elements of matching values match. -/
theorem agree_getIndex (hvalue : value.Matches matching value')
    (hindex : index.Matches matching index') :
    Agree (Value.Matches matching) (heap.getIndex value index) (other.getIndex value' index') := by
  have hrefuse (type : ValueType) : Agree (Value.Matches matching)
      (.error (.indexRead type index.type)) (.error (.indexRead type index'.type)) := by
    rw [hindex.type_eq]
    exact .error _
  cases hvalue with
  | plain hplain =>
    cases value with
    | string text =>
      cases hindex with
      | plain hplain' =>
        cases index with
        | int i =>
          refine agree_plain fun result hresult => ?_
          cases hresult
          generalize (offset? i).bind (text.toList[·]?) = found
          cases found <;> rfl
        | _ => exact .error _
      | list | object | function => exact .error _
    | list | object | function => cases hplain
    | _ => exact hrefuse _
  | list hpair =>
    cases hindex with
    | plain hplain =>
      cases index with
      | int i =>
        refine .ok (rel_getD ?_ (.plain rfl))
        rw [h.size_items_eq hpair]
        cases position? i (other.items _).size with
        | none => exact .none
        | some position => exact h.rel_item hpair position
      | _ => exact .error _
    | list | object | function => exact .error _
  | object hpair =>
    cases hindex with
    | plain hplain =>
      cases index with
      | string key => exact .ok (rel_getD ((h.rel_properties hpair).get? key) (.plain rfl))
      | _ => exact .error _
    | list | object | function => exact .error _
  | function => exact hrefuse _

/-! ## Names -/

variable {scope scope' : ScopeId} (hscope : matching.Pairs scope.place scope'.place)
include hscope

/-- Paired scopes bind a name to matching values. -/
theorem rel_own? (name : String) :
    Option.Rel (Value.Matches matching) (heap.scopes.own? scope name)
      (other.scopes.own? scope' name) := by
  have hframe := h.rel_frame? hscope
  unfold Scopes.own?
  generalize heap.scopes.frame? scope = frame, other.scopes.frame? scope' = frame' at hframe
  cases hframe with
  | none => exact .none
  | some hmatch =>
    cases hmatch with
    | frame hbindings _ => exact hbindings.get? name

/-- Paired scopes bind the same names. -/
theorem binds_eq (name : String) :
    heap.scopes.binds name scope = other.scopes.binds name scope' :=
  isSome_eq_of_rel (h.rel_own? hscope name)

/-- The scopes around paired ones are paired. -/
theorem rel_outer? :
    Option.Rel (Option.Rel fun outer outer' => matching.Pairs outer.place outer'.place)
      (heap.scopes.outer? scope) (other.scopes.outer? scope') := by
  refine rel_map (h.rel_frame? hscope) fun hmatch => ?_
  cases hmatch with
  | frame _ houter => exact houter

/-- A name is bound nearest in scopes that stand for each other. -/
theorem rel_holder? (name : String) :
    Option.Rel (fun holder holder' => matching.Pairs holder.place holder'.place)
      (heap.scopes.holder? scope name) (other.scopes.holder? scope' name) := by
  obtain ⟨index⟩ := scope
  induction index using Nat.strongRecOn generalizing scope' with
  | ind index ih =>
    have houter := h.rel_outer? hscope
    cases hleft : heap.scopes.outer? ⟨index⟩ with
    | none =>
      rw [hleft] at houter
      cases hright : other.scopes.outer? scope' with
      | some _ =>
        rw [hright] at houter
        cases houter
      | none =>
        rw [Scopes.holder?_of_not_has (mt Scopes.has_iff.mp (not_not_intro hleft)),
          Scopes.holder?_of_not_has (mt Scopes.has_iff.mp (not_not_intro hright))]
        exact .none
    | some around =>
      rw [hleft] at houter
      cases hright : other.scopes.outer? scope' with
      | none =>
        rw [hright] at houter
        cases houter
      | some around' =>
        rw [hright] at houter
        rw [Scopes.holder?_of_outer? hleft, Scopes.holder?_of_outer? hright,
          h.binds_eq hscope name]
        split
        · exact .some hscope
        · cases houter with
          | some haround =>
            cases haround with
            | none => exact .none
            | some hpair => exact ih _ (Scopes.index_lt_of_outer? hleft) hpair

/-- A name is looked up alike from paired scopes. -/
theorem rel_get? (name : String) :
    Option.Rel (Value.Matches matching) (heap.scopes.get? scope name)
      (other.scopes.get? scope' name) := by
  have hholder := h.rel_holder? hscope name
  rw [Scopes.get?_eq_own?, Scopes.get?_eq_own?]
  generalize heap.scopes.holder? scope name = holder,
    other.scopes.holder? scope' name = holder' at hholder
  cases hholder with
  | none => exact .none
  | some hpair => exact h.rel_own? hpair name

/-- Setting a variable is refused for the same reason. -/
theorem refusal?_eq (name : String) (policy : Policy) :
    heap.scopes.refusal? scope name policy = other.scopes.refusal? scope' name policy := by
  cases policy with
  | cannotExist => rw [Scopes.refusal?, Scopes.refusal?, h.binds_eq hscope name]
  | mustExist =>
    have hholder := isSome_eq_of_rel (h.rel_holder? hscope name)
    rw [Scopes.refusal?, Scopes.refusal?]
    simp only [← Option.isNone_iff_eq_none, ← Option.not_isSome, hholder]
  | unconstrained => rfl

/-- Setting a variable writes in scopes that stand for each other. -/
theorem pairs_slot (name : String) (policy : Policy) (declaration : Bool) :
    matching.Pairs (heap.scopes.slot scope name policy declaration).place
      (other.scopes.slot scope' name policy declaration).place := by
  have hholder := rel_getD (h.rel_holder? hscope name) hscope
  cases policy with
  | cannotExist => exact hscope
  | mustExist => exact hholder
  | unconstrained =>
    cases declaration with
    | false => exact hholder
    | true => exact hscope

end Heap.Joined

/-! ## Texts -/

/-- The place of a list or an object. -/
def Cell.place : Cell → Place
  | list id => ⟨.lists, id.index⟩
  | object id => ⟨.objects, id.index⟩

/-- A cell is told by its place. -/
theorem Cell.place_inj {cell next : Cell} : cell.place = next.place ↔ cell = next := by
  cases cell <;> cases next <;> simp [Cell.place, ListId.ext_iff, ObjectId.ext_iff]

/-- Paths into cells that stand for each other, one by one. -/
abbrev PathsMatch (matching : Matching) : List Cell → List Cell → Prop :=
  List.Forall₂ fun cell cell' => matching.Pairs cell.place cell'.place

/-- Matching paths hold matching cells. -/
theorem PathsMatch.contains_eq {path path' : List Cell} (h : PathsMatch matching path path')
    {cell cell' : Cell} (hcell : matching.Pairs cell.place cell'.place) :
    path.contains cell = path'.contains cell' := by
  induction h with
  | nil => rfl
  | @cons entered entered' _ _ hentered _ ih =>
    have hsame : (cell == entered) = (cell' == entered') := by
      rw [Bool.eq_iff_iff, beq_iff_eq, beq_iff_eq, ← Cell.place_inj, ← Cell.place_inj]
      exact matching.eq_iff hcell hentered
    rw [List.contains_cons, List.contains_cons, hsame, ih]

/-- Related lists have one image under functions that agree. -/
theorem map_eq_of_forall₂ {α β γ : Type} {related : α → β → Prop} {f : α → γ} {g : β → γ}
    {first : List α} {second : List β} (h : List.Forall₂ related first second)
    (heq : ∀ {item item'}, related item item' → f item = g item') :
    first.map f = second.map g := by
  induction h with
  | nil => rfl
  | cons hitem _ ih => rw [List.map_cons, List.map_cons, heq hitem, ih]

namespace Heap

variable {heap : Heap} {path : List Cell}

/-- Inside a cell, texts are equal if they are equal outside of one. -/
theorem nestedText_eq {write write' : Value → String} {value value' : Value}
    (hvalue : value.Matches matching value') (h : write value = write' value') :
    nestedText write value = nestedText write' value' := by
  cases hvalue with
  | plain =>
    cases value with
    | string => rfl
    | _ => exact h
  | list | object | function => exact h

/-- A list is rendered element by element. -/
theorem renderWithin_list {list : ListId} (hpath : path.contains (.list list) = false) :
    heap.renderWithin path (.list list) =
      heap.lists[list.index]?.elim "[]" fun items =>
        "[" ++ ", ".intercalate
          (items.toList.map (nestedText (heap.renderWithin (.list list :: path)))) ++ "]" := by
  rw [renderWithin, dif_neg (Bool.eq_false_iff.mp hpath)]
  split
  · rename_i hnone
    rw [hnone, Option.elim_none]
  · rename_i hsome
    dsimp only
    rw [hsome, Option.elim_some]

/-- An object is rendered property by property. -/
theorem renderWithin_object {object : ObjectId} (hpath : path.contains (.object object) = false) :
    heap.renderWithin path (.object object) =
      heap.objects[object.index]?.elim "\x7b\x7d" fun properties =>
        "\x7b" ++ ", ".intercalate (properties.entries.map fun entry =>
          entry.1 ++ ": " ++
            nestedText (heap.renderWithin (.object object :: path)) entry.2) ++ "\x7d" := by
  rw [renderWithin, dif_neg (Bool.eq_false_iff.mp hpath)]
  split
  · rename_i hnone
    rw [hnone, Option.elim_none]
  · rename_i hsome
    dsimp only
    rw [hsome, Option.elim_some]

namespace Joined

variable {limit : Shelf → Nat} {other : Heap} (h : heap.Joined matching limit other)
include h

/-- Values that are alike have the same text, inside cells that stand for each other. -/
theorem renderWithin_eq {path' : List Cell} (hpath : PathsMatch matching path path')
    {value value' : Value} (hvalue : value.Matches matching value') :
    heap.renderWithin path value = other.renderWithin path' value' := by
  -- Each step inwards leaves fewer cells of the first heap to enter.
  induction hcount : heap.unentered path using Nat.strongRecOn generalizing path path' value value'
    with
  | ind count ih =>
    subst hcount
    have hnested {cell cell' : Cell} (hcell : matching.Pairs cell.place cell'.place)
        (hmem : cell ∈ heap.cells) (hnew : path.contains cell = false) {inner inner' : Value}
        (hinner : inner.Matches matching inner') :
        nestedText (heap.renderWithin (cell :: path)) inner =
          nestedText (other.renderWithin (cell' :: path')) inner' := by
      have hfewer := unentered_cons_lt hmem (Bool.eq_false_iff.mp hnew)
      have hwithin := ih _ hfewer (.cons hcell hpath) hinner rfl
      exact nestedText_eq hinner hwithin
    cases hvalue with
    | plain hplain =>
      cases value with
      | list | object | function => cases hplain
      | _ => rw [renderWithin, renderWithin]
    | @list id id' hpair =>
      have hcell : matching.Pairs (Cell.list id).place (Cell.list id').place := hpair
      have hinside := hpath.contains_eq hcell
      cases hin : path.contains (.list id) with
      | true =>
        rw [renderWithin, dif_pos hin, renderWithin, dif_pos (hinside ▸ hin)]
      | false =>
        rw [renderWithin_list hin, renderWithin_list (hinside ▸ hin)]
        have hlists := h.rel_lists hpair
        cases hitems : heap.lists[id.index]? with
        | none =>
          rw [hitems] at hlists
          generalize other.lists[id'.index]? = found' at hlists ⊢
          cases hlists
          rw [Option.elim_none, Option.elim_none]
        | some values =>
          have hmem := list_mem_cells hitems
          rw [hitems] at hlists
          generalize other.lists[id'.index]? = found' at hlists ⊢
          cases hlists with
          | some hvalues =>
            rw [Option.elim_some, Option.elim_some,
              map_eq_of_forall₂ hvalues (hnested hcell hmem hin)]
    | @object id id' hpair =>
      have hcell : matching.Pairs (Cell.object id).place (Cell.object id').place := hpair
      have hinside := hpath.contains_eq hcell
      cases hin : path.contains (.object id) with
      | true =>
        rw [renderWithin, dif_pos hin, renderWithin, dif_pos (hinside ▸ hin)]
      | false =>
        rw [renderWithin_object hin, renderWithin_object (hinside ▸ hin)]
        have hobjects := h.rel_objects hpair
        cases hproperties : heap.objects[id.index]? with
        | none =>
          rw [hproperties] at hobjects
          generalize other.objects[id'.index]? = found' at hobjects ⊢
          cases hobjects
          rw [Option.elim_none, Option.elim_none]
        | some entries =>
          have hmem := object_mem_cells hproperties
          rw [hproperties] at hobjects
          generalize other.objects[id'.index]? = found' at hobjects ⊢
          cases hobjects with
          | some hentries =>
            rw [Option.elim_some, Option.elim_some, map_eq_of_forall₂ hentries fun hentry => ?_]
            rw [hentry.1, hnested hcell hmem hin hentry.2]
    | function hpair =>
      rw [renderWithin, renderWithin]
      have hcallable := h.rel_callable? hpair
      generalize heap.callable? _ = found, other.callable? _ = found' at hcallable
      cases hcallable with
      | none => rfl
      | some hmatch => cases hmatch <;> rfl

/-- Matching values are rendered alike. -/
theorem render_eq {value value' : Value} (hvalue : value.Matches matching value') :
    heap.render value = other.render value' :=
  h.renderWithin_eq .nil hvalue

/-! ## Operators -/

/-- Addition agrees on matching values. -/
theorem agree_add {left left' right right' : Value} (hleft : left.Matches matching left')
    (hright : right.Matches matching right') :
    Agree (Value.Matches matching) (heap.add left right) (other.add left' right') := by
  unfold Heap.add
  rw [hleft.isString_eq, hright.isString_eq, h.render_eq hleft, h.render_eq hright]
  split
  · exact .ok (.plain rfl)
  · refine Value.agree_arithmetic _ ?_ _ hleft hright
    rintro _ _ _ ⟨⟩
    rfl

/-- Binary operators agree on matching values. -/
theorem agree_applyBinary (operator : BinaryOperator) {left left' right right' : Value}
    (hleft : left.Matches matching left') (hright : right.Matches matching right') :
    Agree (Value.Matches matching) (heap.applyBinary operator left right)
      (other.applyBinary operator left' right') := by
  cases operator with
  | add => exact h.agree_add hleft hright
  | sub | mul =>
    refine Value.agree_arithmetic _ ?_ _ hleft hright
    rintro _ _ _ ⟨⟩
    rfl
  | div => exact Value.agree_arithmetic _ (fun _ _ _ => Value.plain_divideInts) _ hleft hright
  | mod => exact Value.agree_arithmetic _ (fun _ _ _ => Value.plain_remainderOfInts) _ hleft hright
  | pow =>
    refine Value.agree_arithmetic _ ?_ _ hleft hright
    rintro a b _ ⟨⟩
    exact Value.plain_powerOfInts a b
  | equal | notEqual =>
    refine .ok ?_
    rw [hleft.same_eq hright]
    exact .plain rfl
  | less | greater | lessEqual | greaterEqual => exact Value.agree_ordered _ _ hleft hright
  | both | either =>
    refine .ok ?_
    rw [hleft.isTruthy_eq, hright.isTruthy_eq]
    exact .plain rfl
  | bitOr | bitAnd | bitXor => exact Value.agree_bitwise _ _ hleft hright

end Joined

end Heap

end TreeScript
