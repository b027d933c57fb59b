import TreeScript.Proofs.Operation.Parts
import TreeScript.Proofs.Surface.Lowered

/-!
# Where operations stand in programs

`Program.Holds` keeps the operations that an operand of a program stands in, up to the body around
them. `Operation.FitsIn` lists what a program that comes from a tree allows in each place. The
invariant behind it, `StandsAs`, says more than the list: everything that is not an element of a
body is a value, the function of a declaration, or one of the three operations between the ends of
a step.
-/

namespace TreeScript

/-- Whether an operation makes a function. -/
def Operation.isFunction : Operation → Bool
  | function _ _ _ => true
  | _ => false

namespace Target

/-- The sum or difference of the place and one, with the value of the place set aside. -/
def stepped (target : Target) (operator : BinaryOperator) : Operation :=
  .binary operator (.stackPush target.read) (.literal (.int 1))

/-- Write the place with its value stepped. -/
def step (target : Target) (operator : BinaryOperator) : Operation :=
  target.write (target.stepped operator) .mustExist

end Target

/-- What an operation may be, with others around it. -/
def Operation.FitsIn (around : List Operation) : Operation → Prop
  -- What may leave a body, and what has branches, is an element of a body.
  | giveBack _ | ifThen _ _ | ifThenElse _ _ _ | block _ => around = []
  -- Functions are made where they are declared.
  | function name parameters body =>
    parameters.Nodup ∧
      around.head? = some (.setVariable name (.function name parameters body) .unconstrained true)
  -- All other declarations must be new, and a combined assignment reads what it writes first.
  | setVariable name value policy declaration =>
    (policy = .cannotExist ↔ declaration = true ∧ value.isFunction = false) ∧
      (policy = .mustExist → declaration = false ∧
        ∃ operator ∈ BinaryOperator.compoundable, ∃ read operand,
          value = .binary operator read operand ∧
            (read = .getVariable name ∨ read = .stackPush (.getVariable name)))
  -- A value is set aside and taken back only around a step, and only the value of its place.
  | stackPop inner =>
    ∃ target : Target, ∃ operator ∈ [BinaryOperator.add, .sub], inner = target.step operator
  | stackPush inner =>
    ∃ target : Target, ∃ operator ∈ [BinaryOperator.add, .sub], inner = target.read ∧
      [target.stepped operator, target.step operator, .stackPop (target.step operator)] <+: around
  | _ => True

/-! ## The operands of places -/

namespace Target

variable {target : Target} {operation : Operation}

/-- A write has the parts of its place and its value as operands. -/
theorem operands_write (target : Target) (value : Operation) (policy : Policy) :
    (target.write value policy).operands = target.parts ++ [value] := by
  cases target <;> rfl

/-- A write has no bodies. -/
theorem bodies_write (target : Target) (value : Operation) (policy : Policy) :
    (target.write value policy).bodies = [] := by
  cases target <;> rfl

/-- A place is read by a value. -/
theorem IsPlace.isValue_read (h : target.IsPlace) : target.read.IsValue := by
  cases target with
  | named name => exact .getVariable name
  | member object name => exact .getMember name (h object List.mem_cons_self)
  | index object position =>
    exact .getIndex (h object List.mem_cons_self)
      (h position (List.mem_cons_of_mem _ List.mem_cons_self))

end Target

/-! ## The invariant -/

namespace Operation

/-- What an operation of a program that comes from a tree is, with others around it. -/
inductive StandsAs : List Operation → Operation → Prop
  | statement {operation : Operation} : IsStatement operation → StandsAs [] operation
  | value {around : List Operation} {operation : Operation} :
      IsValue operation → StandsAs around operation
  | function {around body : List Operation} {name : String} {parameters : List String} :
      parameters.Nodup → AreStatements body →
      StandsAs (.setVariable name (.function name parameters body) .unconstrained true :: around)
        (.function name parameters body)
  | step {around : List Operation} {target : Target} {operator : BinaryOperator} :
      target.IsPlace → operator ∈ [BinaryOperator.add, .sub] →
      StandsAs (.stackPop (target.step operator) :: around) (target.step operator)
  | stepped {around : List Operation} {target : Target} {operator : BinaryOperator} :
      target.IsPlace → operator ∈ [BinaryOperator.add, .sub] →
      StandsAs (target.step operator :: .stackPop (target.step operator) :: around)
        (target.stepped operator)
  | push {around : List Operation} {target : Target} {operator : BinaryOperator} :
      target.IsPlace → operator ∈ [BinaryOperator.add, .sub] →
      StandsAs
        (target.stepped operator :: target.step operator ::
          .stackPop (target.step operator) :: around)
        (.stackPush target.read)

variable {around body : List Operation} {outer operation : Operation} {target : Target}

/-- The signs of steps stand for sums and differences. -/
theorem mem_add_sub_of_stepOperator? {sign : String} {operator : BinaryOperator}
    (h : stepOperator? sign = some operator) : operator ∈ [BinaryOperator.add, .sub] := by
  unfold stepOperator? at h
  split at h <;> cases h <;> decide

/-- Addition and subtraction are compoundable. -/
theorem mem_compoundable_of_mem_add_sub {operator : BinaryOperator}
    (h : operator ∈ [BinaryOperator.add, .sub]) : operator ∈ BinaryOperator.compoundable := by
  revert operator
  decide

/-- The operands of a write are what its place is reached through and the value. -/
theorem StandsAs.of_mem_write {value : Operation} {policy : Policy} (htarget : target.IsPlace)
    (hvalue : StandsAs (target.write value policy :: around) value)
    (h : operation ∈ (target.write value policy).operands) :
    StandsAs (target.write value policy :: around) operation := by
  rw [Target.operands_write] at h
  rcases List.mem_append.mp h with hpart | hlast
  · exact .value (htarget operation hpart)
  · rw [List.mem_singleton.mp hlast]
    exact hvalue

/-- One step down from a value: its operands are values, but for what is inside a step. -/
theorem IsValue.standsAs_operand (h : outer.IsValue) (hoperand : operation ∈ outer.operands) :
    StandsAs (outer :: around) operation := by
  cases h with
  | literal | getVariable => cases hoperand
  | getMember _ hobject =>
    rw [List.mem_singleton.mp hoperand]
    exact .value hobject
  | getIndex hobject hindex =>
    rcases List.mem_pair.mp hoperand with rfl | rfl
    · exact .value hobject
    · exact .value hindex
  | call hcallee harguments =>
    rcases List.mem_cons.mp hoperand with rfl | hargument
    · exact .value hcallee
    · exact .value (harguments operation hargument)
  | createList helements => exact .value (helements operation hoperand)
  | binary _ hleft hright =>
    rcases List.mem_pair.mp hoperand with rfl | rfl
    · exact .value hleft
    · exact .value hright
  | unary _ hinner =>
    rw [List.mem_singleton.mp hoperand]
    exact .value hinner
  | assign htarget hvalue => exact .of_mem_write htarget (.value hvalue) hoperand
  | combine _ htarget hvalue =>
    have hread := Target.IsPlace.isValue_read htarget
    exact .of_mem_write htarget (.value (.binary _ hread hvalue)) hoperand
  | stepAfter hsign htarget =>
    rw [List.mem_singleton.mp hoperand]
    exact .step htarget (mem_add_sub_of_stepOperator? hsign)

/-- Values have no bodies. -/
theorem IsValue.bodies_eq (h : outer.IsValue) : outer.bodies = [] := by
  cases h with
  | assign | combine => exact Target.bodies_write _ _ _
  | _ => rfl

/-- One step down from a statement. -/
theorem IsStatement.standsAs_operand (h : outer.IsStatement)
    (hoperand : operation ∈ outer.operands) : StandsAs (outer :: around) operation := by
  cases h with
  | value hvalue => exact hvalue.standsAs_operand hoperand
  | declareVariable _ hinitial =>
    rw [List.mem_singleton.mp hoperand]
    exact .value hinitial
  | declareFunction _ hparameters hbody =>
    rw [List.mem_singleton.mp hoperand]
    exact .function hparameters hbody
  | giveBack hvalue =>
    rw [List.mem_singleton.mp hoperand]
    exact .value hvalue
  | ifThen hcondition | ifThenElse hcondition =>
    rw [List.mem_singleton.mp hoperand]
    exact .value hcondition
  | block => cases hoperand

/-- The bodies of statements are made of statements. -/
theorem IsStatement.areStatements_body (h : outer.IsStatement) (hbody : body ∈ outer.bodies) :
    AreStatements body := by
  cases h with
  | value hvalue =>
    rw [hvalue.bodies_eq] at hbody
    cases hbody
  | declareVariable | declareFunction | giveBack => cases hbody
  | ifThen _ hconsequence =>
    rw [List.mem_singleton.mp hbody]
    exact hconsequence
  | ifThenElse _ hconsequence halternative =>
    rcases List.mem_pair.mp hbody with rfl | rfl
    · exact hconsequence
    · exact halternative
  | block hstatements =>
    rw [List.mem_singleton.mp hbody]
    exact hstatements

/-- The invariant holds of the operands of what it holds of. -/
theorem StandsAs.operand (h : StandsAs around outer) (hoperand : operation ∈ outer.operands) :
    StandsAs (outer :: around) operation := by
  cases h with
  | statement hstatement => exact hstatement.standsAs_operand hoperand
  | value hvalue => exact hvalue.standsAs_operand hoperand
  | function => cases hoperand
  | step htarget hoperator => exact .of_mem_write htarget (.stepped htarget hoperator) hoperand
  | stepped htarget hoperator =>
    rcases List.mem_pair.mp hoperand with rfl | rfl
    · exact .push htarget hoperator
    · exact .value (.literal _)
  | push htarget _ =>
    rw [List.mem_singleton.mp hoperand]
    exact .value htarget.isValue_read

/-- What it holds of has bodies that are made of statements. -/
theorem StandsAs.areStatements_body (h : StandsAs around outer) (hbody : body ∈ outer.bodies) :
    AreStatements body := by
  cases h with
  | statement hstatement => exact hstatement.areStatements_body hbody
  | value hvalue =>
    rw [hvalue.bodies_eq] at hbody
    cases hbody
  | function _ hstatements =>
    rw [List.mem_singleton.mp hbody]
    exact hstatements
  | step =>
    unfold Target.step at hbody
    rw [Target.bodies_write] at hbody
    cases hbody
  | stepped | push => cases hbody

/-! ## From the invariant to the list -/

/-- A value makes no function. -/
theorem IsValue.isFunction_eq_false (h : operation.IsValue) : operation.isFunction = false := by
  cases h with
  | @assign target | @combine target => cases target <;> rfl
  | _ => rfl

/-- A combined assignment reads its place in one of two ways and writes it. -/
theorem fitsIn_update {read value : Operation} {operator : BinaryOperator}
    (hoperator : operator ∈ BinaryOperator.compoundable)
    (hread : read = target.read ∨ read = .stackPush target.read) :
    FitsIn around (target.write (.binary operator read value) .mustExist) := by
  cases target with
  | named name =>
    exact ⟨by simp, fun _ => ⟨rfl, operator, hoperator, read, value, rfl, hread⟩⟩
  | member | index => trivial

/-- A value fits in everywhere. -/
theorem IsValue.fitsIn (h : operation.IsValue) : FitsIn around operation := by
  cases h with
  | @assign target _ _ _ =>
    cases target with
    | named name => exact ⟨by simp, by simp⟩
    | member | index => trivial
  | combine hoperator => exact fitsIn_update hoperator (.inl rfl)
  | @stepAfter target _ operator hsign =>
    exact ⟨target, operator, mem_add_sub_of_stepOperator? hsign, rfl⟩
  | _ => trivial

/-- A statement fits in a body. -/
theorem IsStatement.fitsIn (h : operation.IsStatement) : FitsIn [] operation := by
  cases h with
  | value hvalue => exact hvalue.fitsIn
  | declareVariable _ hinitial =>
    exact ⟨by simp [hinitial.isFunction_eq_false], by simp⟩
  | declareFunction => exact ⟨by simp [isFunction], by simp⟩
  | giveBack | ifThen | ifThenElse | block => rfl

/-- Whatever stands somewhere fits in there. -/
theorem StandsAs.fitsIn (h : StandsAs around operation) : FitsIn around operation := by
  cases h with
  | statement hstatement => exact hstatement.fitsIn
  | value hvalue => exact hvalue.fitsIn
  | function hparameters => exact ⟨hparameters, rfl⟩
  | step _ hoperator => exact fitsIn_update (mem_compoundable_of_mem_add_sub hoperator) (.inr rfl)
  | stepped => trivial
  | @push around target operator _ hoperator =>
    exact ⟨target, operator, hoperator, rfl, List.prefix_append _ around⟩

end Operation

open Operation

/-! ## Programs -/

/-- What a program of statements holds stands as one or in one. -/
theorem Program.Holds.standsAs {program : Program} (h : AreStatements program.body)
    {around : List Operation} {operation : Operation} (hholds : program.Holds around operation) :
    StandsAs around operation := by
  induction hholds with
  | statement hoperation => exact .statement (h _ hoperation)
  | inBody _ hbody hoperation ih => exact .statement (ih.areStatements_body hbody _ hoperation)
  | operand _ hoperand ih => exact ih.operand hoperand

/-- Whatever tree a program comes from, each of its operations, at any depth, fits in where it
stands. -/
theorem Program.operations_fit {root : Tree} {program : Program}
    (h : Program.ofTree root = .ok program) :
    ∀ around operation, program.Holds around operation → operation.FitsIn around :=
  fun _ _ hholds => (hholds.standsAs (Program.areStatements_of_ofTree h)).fitsIn

/-- `function f(x, y) { if (x) return x.n++; }` -/
def countingScript : Surface.Script :=
  let step := Surface.Expression.stepAfter (.member (.name "x") (.name "n")) .up
  ⟨[.function "f" ["x", "y"]
    [.ifThen (.mk (.name "x") []) (.giveBack (some (.mk step [])) .mark)]]⟩

/-- The program that the script means. -/
def countingProgram : Program :=
  let place := Target.member (.getVariable "x") "n"
  let body := [.ifThen (.getVariable "x") [.giveBack (.stackPop (place.step .add))]]
  ⟨[.setVariable "f" (.function "f" ["x", "y"] body) .unconstrained true]⟩

/-- Four operations deep in the function, the member is set aside for the step around it. -/
theorem Program.operations_fit_counting :
    Program.ofTree countingScript.tree = .ok countingProgram ∧
      let place := Target.member (.getVariable "x") "n"
      let around := [place.stepped .add, place.step .add, .stackPop (place.step .add),
        .giveBack (.stackPop (place.step .add))]
      countingProgram.Holds around (.stackPush place.read) ∧
        (Operation.stackPush place.read).FitsIn around := by
  have hprogram : Program.ofTree countingScript.tree = .ok countingProgram :=
    countingScript.accords_ofTree
  have hholds : countingProgram.Holds _ (.stackPush _) :=
    .operand (.operand (.operand (.operand
      (.inBody
        (.inBody (.operand (.statement List.mem_cons_self) List.mem_cons_self) List.mem_cons_self
          List.mem_cons_self)
        List.mem_cons_self List.mem_cons_self)
      List.mem_cons_self) List.mem_cons_self) (List.mem_cons_of_mem _ List.mem_cons_self))
      List.mem_cons_self
  exact ⟨hprogram, hholds, Program.operations_fit hprogram _ _ hholds⟩

end TreeScript
