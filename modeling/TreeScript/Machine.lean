import TreeScript.Heap.Access
import TreeScript.Heap.Operator

/-!
# The machine

Programs run on a machine: the heap, a stack of values that have been set aside, and the lines
printed so far. A step that fails keeps the machine as it was at the fault.
-/

namespace TreeScript

/-- What running programs work on. -/
structure Machine where
  heap : Heap
  /-- The values set aside, the last one first. -/
  stack : List Value
  /-- The lines printed, the first one first. -/
  output : Array String

/-- A machine with nothing in it. -/
def Machine.empty : Machine := ⟨.empty, [], #[]⟩

/-- A step of a run. -/
abbrev Evaluation := ExceptT Fault (StateM Machine)

namespace Evaluation

/-- Find something out from the heap. -/
def consult {α : Type} (question : Heap → Except Fault α) : Evaluation α := fun machine =>
  (question machine.heap, machine)

/-- Change the heap. -/
def update (change : Heap → Except Fault Heap) : Evaluation Unit := fun machine =>
  match change machine.heap with
  | .ok heap => (.ok (), { machine with heap })
  | .error fault => (.error fault, machine)

/-- Make something new in the heap. -/
def allocate {α : Type} (make : Heap → α × Heap) : Evaluation α :=
  modifyGet fun machine =>
    let (made, heap) := make machine.heap
    (made, { machine with heap })

/-- The meaning of a name in a scope. -/
def lookUp (scope : ScopeId) (name : String) : Evaluation Value :=
  consult fun heap =>
    match heap.scopes.get? scope name with
    | some value => .ok value
    | none => .error (.undefinedName name)

/-- Set a variable in a scope. -/
def bindName (scope : ScopeId) (name : String) (value : Value) (policy : Policy)
    (declaration : Bool) : Evaluation Unit :=
  update fun heap => do
    let scopes ← heap.scopes.bind scope name value policy declaration
    return { heap with scopes }

/-- Set a value aside. -/
def setAside (value : Value) : Evaluation Unit :=
  modify fun machine => { machine with stack := value :: machine.stack }

/-- Take back the value that was set aside last. -/
def takeBack : Evaluation Value := fun machine =>
  match machine.stack with
  | value :: stack => (.ok value, { machine with stack })
  | [] => (.error .emptyStack, machine)

/-- Forget all values that were set aside. -/
def clearStack : Evaluation Unit :=
  modify fun machine => { machine with stack := [] }

/-- Print a line. -/
def writeLine (line : String) : Evaluation Unit :=
  modify fun machine => { machine with output := machine.output.push line }

/-- The function that a value stands for. -/
def calledFunction (callee : Value) : Evaluation Callable :=
  consult fun heap =>
    match callee with
    | .function function =>
      match heap.callable? function with
      | some callable => .ok callable
      | none => .error (.notCallable .function)
    | other => .error (.notCallable other.type)

end Evaluation

namespace Heap

/-- Bind parameters to arguments in a scope. Parameters without an argument are null, and
arguments without a parameter are dropped. -/
def bindParameters (heap : Heap) (scope : ScopeId) : List String → List Value → Heap
  | [], _ => heap
  | name :: names, [] => (heap.define scope name .null).bindParameters scope names []
  | name :: names, value :: values =>
    (heap.define scope name value).bindParameters scope names values

/-- Make the scope that a call runs in. -/
def enterCall (heap : Heap) (outer : ScopeId) (parameters : List String) (arguments : List Value) :
    ScopeId × Heap :=
  let (scope, heap) := heap.newScope outer
  (scope, heap.bindParameters scope parameters arguments)

end Heap

end TreeScript
