import TreeScript.Heap.Render
import TreeScript.Value.Arithmetic

/-!
# Operators between two values

Integers are added, subtracted and multiplied modulo two to the sixty-fourth. A sum with a string
appends texts, which is why operators need the heap.
-/

namespace TreeScript

namespace Heap

/-- Add numbers; if one of the operands is a string, append their texts. -/
def add (heap : Heap) (left right : Value) : Except Fault Value :=
  if left.isString || right.isString then
    return .string (heap.render left ++ heap.render right)
  else Value.arithmetic .add (fun a b => return .int (a + b)) (· + ·) left right

/-- Apply an operator between two operands. -/
def applyBinary (heap : Heap) (operator : BinaryOperator) (left right : Value) :
    Except Fault Value :=
  match operator with
  | .add => heap.add left right
  | .sub => Value.arithmetic .sub (fun a b => return .int (a - b)) (· - ·) left right
  | .mul => Value.arithmetic .mul (fun a b => return .int (a * b)) (· * ·) left right
  | .div => Value.arithmetic .div Value.divideInts (· / ·) left right
  | .mod => Value.arithmetic .mod Value.remainderOfInts floatRemainder left right
  | .pow =>
    Value.arithmetic .pow (fun a b => return Value.powerOfInts a b) Float.pow left right
  | .equal => return .bool (left.same right)
  | .notEqual => return .bool !(left.same right)
  | .less => Value.ordered .less Ordering.isLT left right
  | .greater => Value.ordered .greater Ordering.isGT left right
  | .lessEqual => Value.ordered .lessEqual Ordering.isLE left right
  | .greaterEqual => Value.ordered .greaterEqual Ordering.isGE left right
  | .both => return .bool (left.isTruthy && right.isTruthy)
  | .either => return .bool (left.isTruthy || right.isTruthy)
  | .bitOr => Value.bitwise .bitOr (· ||| ·) left right
  | .bitAnd => Value.bitwise .bitAnd (· &&& ·) left right
  | .bitXor => Value.bitwise .bitXor (· ^^^ ·) left right

end Heap

end TreeScript
