import TreeScript.Machine

/-!
# What the builtins do

A builtin is applied to arguments that have been evaluated. Their number is checked by whoever
calls it: a builtin itself takes a missing argument for null and passes over spare ones.
-/

namespace TreeScript

namespace Builtin

/-- Apply a builtin. -/
def apply (which : Builtin) (arguments : List Value) : Evaluation Value :=
  match which with
  | print => do
    let heap := (← get).heap
    Evaluation.writeLine (" ".intercalate (arguments.map heap.render))
    return .null
  | len =>
    Evaluation.consult fun heap =>
      let value := arguments.headD .null
      match heap.length? value with
      | some count => .ok (.ofCount count)
      | none => .error (.noLength value.type)
  | object => Evaluation.allocate (·.newObject .empty)
  | list => Evaluation.allocate (·.newList arguments)

/-- Refuse a wrong number of arguments. -/
def checkArity (which : Builtin) (given : Nat) : Except Fault Unit :=
  match which.arity with
  | none => return
  | some expected =>
    if given = expected then return else throw (.argumentCount which.name expected given)

/-- Make a function of each builtin and bind it in a scope under its name. -/
def install (heap : Heap) (scope : ScopeId) : Heap :=
  all.foldl (fun heap which =>
    let (function, heap) := heap.newFunction (.builtin which)
    heap.define scope which.name function) heap

end Builtin

end TreeScript
