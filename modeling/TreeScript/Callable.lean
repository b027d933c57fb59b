import TreeScript.Scope

/-!
# Functions

A function is a closure, made of the parts of its definition and the scope it was defined in, or
one of a few functions that every program can use.
-/

namespace TreeScript

/-- The functions that every program can use. -/
inductive Builtin where
  | print
  | len
  | object
  | list
deriving DecidableEq, Repr

namespace Builtin

/-- Every one of them. -/
def all : List Builtin := [print, len, object, list]

/-- The name under which programs use it. -/
def name : Builtin → String
  | print => "print"
  | len => "len"
  | object => "object"
  | list => "list"

/-- How many arguments it takes; any number if none is given. -/
def arity : Builtin → Option Nat
  | print => none
  | len => some 1
  | object => some 0
  | list => none

end Builtin

/-- What is called when a function is called. -/
inductive Callable where
  | closure (name : String) (parameters : List String) (body : List Operation) (scope : ScopeId)
  | builtin (which : Builtin)

namespace Callable

/-- The name of a function. -/
def name : Callable → String
  | closure name _ _ _ => name
  | builtin which => which.name

/-- How many arguments a function takes; any number if none is given. -/
def arity : Callable → Option Nat
  | closure _ parameters _ _ => some parameters.length
  | builtin which => which.arity

/-- The text of a function as a value. -/
def render : Callable → String
  | closure name _ _ _ => s!"[Function: {name}]"
  | builtin which => s!"[Function: {which.name} (native)]"

/-- A function with its sort, for inspection. -/
def describe : Callable → String
  | closure name _ _ _ => s!"Closure({name})"
  | builtin which => s!"NativeFunction({which.name})"

end Callable

end TreeScript
