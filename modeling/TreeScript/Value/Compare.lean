import TreeScript.Value

/-!
# Equality and order of values

Numbers are compared by size, an integer with a floating-point number after widening it. Strings
are compared character by character. Lists, objects and functions are equal to themselves only,
and values of different kinds are never equal.
-/

namespace TreeScript

namespace Value

/-- Whether two values are equal. -/
def same : Value → Value → Bool
  | null, null => true
  | bool a, bool b => a == b
  | int a, int b => a == b
  | float a, float b => a == b
  | int a, float b => widen a == b
  | float a, int b => widen b == a
  | string a, string b => a == b
  | list a, list b => a == b
  | object a, object b => a == b
  | function a, function b => a == b
  | _, _ => false

/-- How two floating-point numbers are ordered; not at all if one is NaN. -/
def compareFloats? (a b : Float) : Option Ordering :=
  if a < b then some .lt
  else if b < a then some .gt
  else if a == b then some .eq
  else none

/-- How two values are ordered, if they are two numbers or two strings. -/
def compare? : Value → Value → Option Ordering
  | int a, int b => some (compare a.toInt b.toInt)
  | string a, string b => some (compareOfLessAndEq a b)
  | a, b => do compareFloats? (← a.toFloat?) (← b.toFloat?)

/-- Whether a value is a number. -/
def isNumber : Value → Bool
  | int _ => true
  | float _ => true
  | _ => false

/-- Whether a value is a string. -/
def isString : Value → Bool
  | string _ => true
  | _ => false

/-- Whether two values may be compared for their order. NaN may be, though it has none. -/
def isComparable (a b : Value) : Bool :=
  (a.isNumber && b.isNumber) || (a.isString && b.isString)

end Value

end TreeScript
