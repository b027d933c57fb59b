import TreeScript.Heap

/-!
# Members and elements

Objects have properties under names; lists and strings have a length, and elements at positions
counted from zero. Reading what is not there gives null; writing outside a list is a fault.
-/

namespace TreeScript

/-- The natural number that an index is, unless it is negative. -/
def offset? (index : Int64) : Option Nat :=
  if 0 ≤ index.toInt then some index.toInt.toNat else none

/-- The position that an index means in a sequence of some length. -/
def position? (index : Int64) (length : Nat) : Option Nat :=
  (offset? index).filter fun offset => offset < length

namespace Heap

/-- The number of elements of a list, characters of a string or properties of an object. -/
def length? (heap : Heap) : Value → Option Nat
  | .list list => some (heap.items list).size
  | .string text => some text.length
  | .object object => some (heap.properties object).size
  | _ => none

/-- Read a member. -/
def getMember (heap : Heap) (value : Value) (member : String) : Except Fault Value :=
  match value with
  | .object object => return ((heap.properties object).get? member).getD .null
  | .list list =>
    return if member = "length" then .ofCount (heap.items list).size else .null
  | .string text => return if member = "length" then .ofCount text.length else .null
  | other => throw (.memberRead member other.type)

/-- Write a member. -/
def setMember (heap : Heap) (target : Value) (member : String) (value : Value) :
    Except Fault Heap :=
  match target with
  | .object object => return heap.setProperty object member value
  | other => throw (.memberWrite member other.type)

/-- Read an element or, by its name, a property. -/
def getIndex (heap : Heap) (value index : Value) : Except Fault Value :=
  match value, index with
  | .list list, .int i =>
    let items := heap.items list
    return ((position? i items.size).bind (items[·]?)).getD .null
  | .string text, .int i =>
    return ((offset? i).bind (text.toList[·]?)).elim .null fun c => .string (String.singleton c)
  | .object object, .string key => return ((heap.properties object).get? key).getD .null
  | value, index => throw (.indexRead value.type index.type)

/-- Write an element or, by its name, a property. -/
def setIndex (heap : Heap) (target index value : Value) : Except Fault Heap :=
  match target, index with
  | .list list, .int i =>
    let length := (heap.items list).size
    match position? i length with
    | some slot => return heap.setItem list slot value
    | none => throw (.indexOutOfRange i length)
  | .object object, .string key => return heap.setProperty object key value
  | target, index => throw (.indexWrite target.type index.type)

end Heap

end TreeScript
