import TreeScript.Callable

/-!
# The heap

The heap holds what values refer to by identity: lists, objects, functions and scopes. Nothing is
ever removed from it, so an identity stays good once it has been given out.
-/

namespace TreeScript

/-- Everything that values refer to. -/
structure Heap where
  lists : Array (Array Value)
  objects : Array (Dictionary Value)
  functions : Array Callable
  scopes : Scopes

namespace Heap

/-- Nothing. -/
def empty : Heap := ⟨#[], #[], #[], .empty⟩

/-- The elements of a list. -/
def items (heap : Heap) (list : ListId) : Array Value := heap.lists[list.index]?.getD #[]

/-- The properties of an object. -/
def properties (heap : Heap) (object : ObjectId) : Dictionary Value :=
  heap.objects[object.index]?.getD .empty

/-- What a function stands for. -/
def callable? (heap : Heap) (function : FunctionId) : Option Callable :=
  heap.functions[function.index]?

/-- Make a list. -/
def newList (heap : Heap) (items : List Value) : Value × Heap :=
  (.list ⟨heap.lists.size⟩, { heap with lists := heap.lists.push items.toArray })

/-- Make an object with some properties. -/
def newObject (heap : Heap) (properties : Dictionary Value) : Value × Heap :=
  (.object ⟨heap.objects.size⟩, { heap with objects := heap.objects.push properties })

/-- Make a function. -/
def newFunction (heap : Heap) (callable : Callable) : Value × Heap :=
  (.function ⟨heap.functions.size⟩, { heap with functions := heap.functions.push callable })

/-- Make a scope inside another. -/
def newScope (heap : Heap) (outer : ScopeId) : ScopeId × Heap :=
  let (scope, scopes) := heap.scopes.child outer
  (scope, { heap with scopes })

/-- Bind a name in a scope. -/
def define (heap : Heap) (scope : ScopeId) (name : String) (value : Value) : Heap :=
  { heap with scopes := heap.scopes.define scope name value }

/-- Write an element of a list. -/
def setItem (heap : Heap) (list : ListId) (index : Nat) (value : Value) : Heap :=
  { heap with lists := heap.lists.modify list.index (·.setIfInBounds index value) }

/-- Write a property of an object. -/
def setProperty (heap : Heap) (object : ObjectId) (key : String) (value : Value) : Heap :=
  { heap with objects := heap.objects.modify object.index (·.insert key value) }

end Heap

end TreeScript
