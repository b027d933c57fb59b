import TreeScript.Decimal.Reading
import TreeScript.Operation

/-!
# Values

A value of a running program is plain data or the identity of a list, object or function. What
an identity stands for is kept in the heap, so that copies of a value share their contents.
-/

namespace TreeScript

/-- The identity of a list. -/
structure ListId where
  index : Nat
deriving DecidableEq, Repr

/-- The identity of an object. -/
structure ObjectId where
  index : Nat
deriving DecidableEq, Repr

/-- The identity of a function. -/
structure FunctionId where
  index : Nat
deriving DecidableEq, Repr

/-- A value of a running program. -/
inductive Value where
  | null
  | bool (value : Bool)
  | int (value : Int64)
  | float (value : Float)
  | string (value : String)
  | list (id : ListId)
  | object (id : ObjectId)
  | function (id : FunctionId)

/-- The types of values. -/
inductive ValueType where
  | null
  | bool
  | int
  | float
  | string
  | list
  | object
  | function
deriving DecidableEq, Repr

/-- The name of a type in messages. -/
def ValueType.name : ValueType → String
  | null => "null"
  | bool => "bool"
  | int => "int"
  | float => "float"
  | string => "string"
  | list => "list"
  | object => "object"
  | function => "function"

namespace Value

/-- The type of a value. -/
def type : Value → ValueType
  | null => .null
  | bool _ => .bool
  | int _ => .int
  | float _ => .float
  | string _ => .string
  | list _ => .list
  | object _ => .object
  | function _ => .function

/-- Whether a value is null. -/
def isNull : Value → Bool
  | null => true
  | _ => false

/-- Whether a value counts as true in a condition. Null, false, zeros, NaN and the empty string do
not; lists, objects and functions always do. -/
def isTruthy : Value → Bool
  | null => false
  | bool value => value
  | int value => value != 0
  | float value => !value.isNaN && value != 0
  | string value => !value.isEmpty
  | list _ => true
  | object _ => true
  | function _ => true

/-- An integer as the nearest floating-point number, ties to even. -/
def widen (value : Int64) : Float := Float.ofInt value.toInt

/-- A number as a floating-point number. -/
def toFloat? : Value → Option Float
  | int value => some (widen value)
  | float value => some value
  | _ => none

/-- The value of a constant. Numbers of single width are widened by way of their decimal text, so
that a constant means the number that was written. -/
def ofLiteral : Literal → Value
  | .bool value => bool value
  | .int value => int value.toInt64
  | .long value => int value
  | .float value => float (widenByDecimal value)
  | .double value => float value
  | .string value => string value
  | .null => null

/-- A number of elements as a value. -/
def ofCount (count : Nat) : Value :=
  int (if count ≤ Int64.maxValue.toInt.toNat then Int64.ofNat count else Int64.maxValue)

end Value

end TreeScript
