import TreeScript.Operation

/-!
# Assignment targets

A target is a place that can be read and written. Updating a place reads it, combines the value
with another and writes the result; to yield the value before the update, it is set aside on the
value stack in between. The parts of a target are evaluated once for each time it is read or
written.
-/

namespace TreeScript

/-- A place that can be assigned to. -/
inductive Target where
  | named (name : String)
  | member (object : Operation) (name : String)
  | index (object position : Operation)

namespace Target

/-- Read the place. -/
def read : Target → Operation
  | named name => .getVariable name
  | member object name => .getMember object name
  | index object position => .getIndex object position

/-- Write the place. Only a variable heeds the policy. -/
def write (value : Operation) (policy : Policy) : Target → Operation
  | named name => .setVariable name value policy false
  | member object name => .setMember object name value
  | index object position => .setIndex object position value

/-- Assign a value. -/
def assign (target : Target) (value : Operation) : Operation := target.write value .unconstrained

/-- Combine the place with a value and assign the result. -/
def combine (target : Target) (operator : BinaryOperator) (value : Operation) : Operation :=
  target.write (.binary operator target.read value) .mustExist

/-- The constant one. -/
def one : Operation := .literal (.int 1)

/-- Step the place and yield its new value. -/
def stepBefore (target : Target) (operator : BinaryOperator) : Operation :=
  target.combine operator one

/-- Step the place and yield its old value. -/
def stepAfter (target : Target) (operator : BinaryOperator) : Operation :=
  .stackPop (target.write (.binary operator (.stackPush target.read) one) .mustExist)

end Target

/-- The operator behind a step sign. -/
def stepOperator? (sign : String) : Option BinaryOperator :=
  match sign with
  | "++" => some .add
  | "--" => some .sub
  | _ => none

end TreeScript
