import TreeScript.Value

/-!
# Faults

A fault ends the run of a program. It records what went wrong; its kind and its wording are
functions of the cause.
-/

namespace TreeScript

/-- The causes of a failed run. -/
inductive Fault where
  | undefinedName (name : String)
  | alreadyDeclared (name : String)
  | notCallable (type : ValueType)
  | callsTooDeep
  | argumentCount (function : String) (expected given : Nat)
  | memberRead (member : String) (type : ValueType)
  | memberWrite (member : String) (type : ValueType)
  | indexRead (type index : ValueType)
  | indexWrite (type index : ValueType)
  | indexOutOfRange (index : Int64) (length : Nat)
  | operands (operator : BinaryOperator) (left right : ValueType)
  | operand (operator : UnaryOperator) (type : ValueType)
  | divisionByZero
  | remainderByZero
  | noLength (type : ValueType)
  | emptyStack
  | statementAsValue
deriving DecidableEq, Repr

/-- The kinds of faults. -/
inductive FaultKind where
  | syntaxError
  | typeError
  | referenceError
  | rangeError
  | internalError
deriving DecidableEq, Repr

/-- The name of a kind in messages. -/
def FaultKind.name : FaultKind → String
  | syntaxError => "SyntaxError"
  | typeError => "TypeError"
  | referenceError => "ReferenceError"
  | rangeError => "RangeError"
  | internalError => "InternalError"

namespace Fault

/-- The kind of a fault. -/
def kind : Fault → FaultKind
  | undefinedName _ => .referenceError
  | alreadyDeclared _ => .syntaxError
  | notCallable _ => .typeError
  | callsTooDeep => .rangeError
  | argumentCount _ _ _ => .typeError
  | memberRead _ _ => .typeError
  | memberWrite _ _ => .typeError
  | indexRead _ _ => .typeError
  | indexWrite _ _ => .typeError
  | indexOutOfRange _ _ => .rangeError
  | operands _ _ _ => .typeError
  | operand _ _ => .typeError
  | divisionByZero => .rangeError
  | remainderByZero => .rangeError
  | noLength _ => .typeError
  | emptyStack => .internalError
  | statementAsValue => .internalError

/-- What is wrong, without the kind. -/
def detail : Fault → String
  | undefinedName name => s!"{name} is not defined"
  | alreadyDeclared name => s!"Variable '{name}' already declared in this scope"
  | notCallable type => s!"{type.name} is not a function"
  | callsTooDeep => "Maximum call stack size exceeded"
  | argumentCount function expected given =>
    let plural := if expected = 1 then "" else "s"
    s!"{function}() takes {expected} argument{plural} but {given} were given"
  | memberRead member type => s!"Cannot read property '{member}' of {type.name}"
  | memberWrite member type => s!"Cannot set property '{member}' of {type.name}"
  | indexRead type index => s!"{type.name} cannot be indexed by {index.name}"
  | indexWrite type index => s!"{type.name} does not support item assignment by {index.name}"
  | indexOutOfRange index length =>
    s!"index {index.toInt} out of range for list of length {length}"
  | operands operator left right =>
    s!"unsupported operand types for {operator.symbol}: {left.name} and {right.name}"
  | operand operator type => s!"bad operand type for unary {operator.name}: {type.name}"
  | divisionByZero => "division by zero"
  | remainderByZero => "modulo by zero"
  | noLength type => s!"object of type {type.name} has no len()"
  | emptyStack => "value stack underflow"
  | statementAsValue => "statement node in expression position"

/-- The message of a fault. -/
def message (fault : Fault) : String := s!"{fault.kind.name}: {fault.detail}"

end Fault

end TreeScript
