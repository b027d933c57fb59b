import TreeScript.Proofs.Lowering.Discipline

/-!
# The programs that lowering makes

Of all operations, lowering makes only some: values are put together from values, a value is set
aside only to yield what a place held before a step, functions are made only where they are
declared, and what may leave a body or branch stands in statement position only. The predicates
here describe exactly that.
-/

namespace TreeScript

/-- The operations that a place is reached through. -/
def Target.parts : Target → List Operation
  | named _ => []
  | member object _ => [object]
  | index object position => [object, position]

namespace Operation

/-- The operations that lowering makes of expressions. -/
inductive IsValue : Operation → Prop
  | literal (value : Literal) : IsValue (.literal value)
  | getVariable (name : String) : IsValue (.getVariable name)
  | getMember {object : Operation} (member : String) :
      IsValue object → IsValue (.getMember object member)
  | getIndex {object index : Operation} :
      IsValue object → IsValue index → IsValue (.getIndex object index)
  | call {callee : Operation} {arguments : List Operation} :
      IsValue callee → (∀ argument ∈ arguments, IsValue argument) →
      IsValue (.call callee arguments)
  | createList {elements : List Operation} :
      (∀ element ∈ elements, IsValue element) → IsValue (.createList elements)
  | binary {left right : Operation} (operator : BinaryOperator) :
      IsValue left → IsValue right → IsValue (.binary operator left right)
  | unary {operand : Operation} (operator : UnaryOperator) :
      IsValue operand → IsValue (.unary operator operand)
  | assign {target : Target} {value : Operation} :
      (∀ part ∈ target.parts, IsValue part) → IsValue value → IsValue (target.assign value)
  | combine {target : Target} {operator : BinaryOperator} {value : Operation} :
      operator ∈ BinaryOperator.compoundable → (∀ part ∈ target.parts, IsValue part) →
      IsValue value → IsValue (target.combine operator value)
  | stepAfter {target : Target} {sign : String} {operator : BinaryOperator} :
      stepOperator? sign = some operator → (∀ part ∈ target.parts, IsValue part) →
      IsValue (target.stepAfter operator)

/-- The operations that lowering makes of statements. -/
inductive IsStatement : Operation → Prop
  | value {operation : Operation} : IsValue operation → IsStatement operation
  | declareVariable {initial : Operation} (name : String) :
      IsValue initial → IsStatement (.setVariable name initial .cannotExist true)
  | declareFunction {parameters : List String} {body : List Operation} (name : String) :
      parameters.Nodup → (∀ operation ∈ body, IsStatement operation) →
      IsStatement (.setVariable name (.function name parameters body) .unconstrained true)
  | giveBack {value : Operation} : IsValue value → IsStatement (.giveBack value)
  | ifThen {condition : Operation} {consequence : List Operation} :
      IsValue condition → (∀ operation ∈ consequence, IsStatement operation) →
      IsStatement (.ifThen condition consequence)
  | ifThenElse {condition : Operation} {consequence alternative : List Operation} :
      IsValue condition → (∀ operation ∈ consequence, IsStatement operation) →
      (∀ operation ∈ alternative, IsStatement operation) →
      IsStatement (.ifThenElse condition consequence alternative)
  | block {body : List Operation} :
      (∀ operation ∈ body, IsStatement operation) → IsStatement (.block body)

/-- A body made of statements. -/
def AreStatements (body : List Operation) : Prop := ∀ operation ∈ body, operation.IsStatement

end Operation

/-- A place reached through values. -/
def Target.IsPlace (target : Target) : Prop := ∀ part ∈ target.parts, part.IsValue

/-! ## What the checks let through -/

/-- No two parameters of a function have the same name. -/
theorem Tree.parameterNames_nodup {parameters : List Tree} {seen names : List String}
    (h : Tree.parameterNames seen parameters = .ok names) (hseen : seen.Nodup) : names.Nodup := by
  fun_induction Tree.parameterNames seen parameters with
  | case1 => cases h; exact hseen
  | case2 _ _ _ _ _ ih => exact ih h hseen
  | case3 => cases h
  | case4 seen _ assignable _ _ ih =>
    obtain ⟨name, -, h⟩ := bind_eq_ok.mp h
    obtain ⟨hfresh, h⟩ := guard_eq_ok.mp h
    refine ih name h ?_
    rw [List.contains_iff_mem] at hfresh
    exact List.nodup_append.mpr ⟨hseen, List.pairwise_singleton _ name, fun _ hmem _ hname heq =>
      hfresh (List.mem_singleton.mp hname ▸ heq ▸ hmem)⟩
  | case5 => cases h

/-- Operators with an assignment are compoundable. -/
theorem BinaryOperator.mem_compoundable_of_ofCompound? {text : String} {operator : BinaryOperator}
    (h : ofCompound? text = some operator) : operator ∈ compoundable :=
  List.mem_of_find?_eq_some h

/-- The operators of steps are compoundable. -/
theorem mem_compoundable_of_stepOperator? {sign : String} {operator : BinaryOperator}
    (h : stepOperator? sign = some operator) : operator ∈ BinaryOperator.compoundable := by
  unfold stepOperator? at h
  split at h <;> cases h <;> decide

namespace Operation

/-- One statement is a body. -/
theorem areStatements_singleton {operation : Operation} (h : operation.IsStatement) :
    AreStatements [operation] := by
  intro other hother
  rw [List.mem_singleton.mp hother]
  exact h

/-- Two bodies in sequence are a body. -/
theorem areStatements_append {first second : List Operation} (hfirst : AreStatements first)
    (hsecond : AreStatements second) : AreStatements (first ++ second) := by
  intro operation hoperation
  rcases List.mem_append.mp hoperation with h | h
  · exact hfirst operation h
  · exact hsecond operation h

end Operation

/-! ## What lowering makes -/

namespace Lowering

open Operation

/-- The outcome of lowering a node: the value of an expression and nothing appended, or
statements appended and no value. -/
def Emitted : Option Operation → List Operation → Prop
  | some operation, appended => operation.IsValue ∧ appended = []
  | none, appended => AreStatements appended

/-- Whatever the outcome, what is appended are statements. -/
theorem areStatements_of_emitted {result : Option Operation} {appended : List Operation}
    (h : Emitted result appended) : AreStatements appended := by
  cases result with
  | none => exact h
  | some operation => exact h.2 ▸ fun _ hmem => nomatch hmem

/-- The step appends statements. -/
abbrev Writing (_ : Unit) (appended : List Operation) : Prop := AreStatements appended

/-- The step appends one statement. -/
abbrev WritingOne (_ : Unit) (appended : List Operation) : Prop :=
  ∃ operation, operation.IsStatement ∧ appended = [operation]

end Lowering

end TreeScript
