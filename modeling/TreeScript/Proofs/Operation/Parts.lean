import TreeScript.Operation

/-!
# What operations are made of

An operation of a program is an element of a body or branch, or an operand of another operation.
`Program.Holds` says so at every depth.
-/

namespace TreeScript

namespace Operation

/-- The operations that an operation computes with. The elements of its bodies are not among
them. -/
def operands : Operation → List Operation
  | literal _ | getVariable _ | function _ _ _ | block _ => []
  | setVariable _ value _ _ => [value]
  | getMember object _ => [object]
  | setMember object _ value => [object, value]
  | getIndex object index => [object, index]
  | setIndex object index value => [object, index, value]
  | call callee arguments => callee :: arguments
  | createList elements => elements
  | binary _ left right => [left, right]
  | unary _ operand => [operand]
  | stackPush inner => [inner]
  | stackPop inner => [inner]
  | giveBack value => [value]
  | ifThen condition _ => [condition]
  | ifThenElse condition _ _ => [condition]

/-- The bodies of functions and blocks, and the branches of conditionals. -/
def bodies : Operation → List (List Operation)
  | function _ _ body => [body]
  | ifThen _ consequence => [consequence]
  | ifThenElse _ consequence alternative => [consequence, alternative]
  | block body => [body]
  | _ => []

end Operation

/-- An operation stands somewhere in a program. Around it are the operations that it is an operand
of, the nearest one first; around an element of a body there are none. -/
inductive Program.Holds (program : Program) : List Operation → Operation → Prop
  | statement {operation : Operation} : operation ∈ program.body → Holds program [] operation
  | inBody {around body : List Operation} {outer operation : Operation} :
      Holds program around outer → body ∈ outer.bodies → operation ∈ body →
      Holds program [] operation
  | operand {around : List Operation} {outer operation : Operation} :
      Holds program around outer → operation ∈ outer.operands →
      Holds program (outer :: around) operation

end TreeScript
