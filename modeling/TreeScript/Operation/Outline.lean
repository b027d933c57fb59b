import TreeScript.Decimal.Layout
import TreeScript.Operation
import TreeScript.Text.Quoted

/-!
# Outlines of programs

An outline shows one operation a line, with what it is made of on the lines below, indented by
two blanks more. The branches of a conditional stand under lines of their own at the
conditional's depth.
-/

namespace TreeScript

/-- A constant with its type, strings quoted. -/
def Literal.describe : Literal → String
  | bool value => s!"Bool({value})"
  | int value => s!"Int({value.toInt})"
  | long value => s!"Long({value.toInt})"
  | float value => s!"Float({NumberLayout.literal.writeFloat32 value})"
  | double value => s!"Double({NumberLayout.literal.writeFloat value})"
  | string value => s!"String({Text.quote value})"
  | null => "Null"

namespace Operation

/-- A line of an outline at a depth. -/
def line (depth : Nat) (text : String) : String :=
  String.ofList (List.replicate (2 * depth) ' ') ++ text

mutual

/-- The lines of an operation's outline at a depth. -/
def outline (depth : Nat) : Operation → List String
  | literal value => [line depth s!"Literal {value.describe}"]
  | getVariable name => [line depth s!"GetVariable {name}"]
  | setVariable name value policy declaration =>
    let mark := if declaration then ", declaration" else ""
    line depth s!"SetVariable {name} ({policy.name}{mark})" :: outline (depth + 1) value
  | getMember object member => line depth s!"GetMember .{member}" :: outline (depth + 1) object
  | setMember object member value =>
    line depth s!"SetMember .{member}" :: outline (depth + 1) object ++ outline (depth + 1) value
  | getIndex object index =>
    line depth "GetIndex" :: outline (depth + 1) object ++ outline (depth + 1) index
  | setIndex object index value =>
    line depth "SetIndex" :: outline (depth + 1) object ++ outline (depth + 1) index ++
      outline (depth + 1) value
  | call callee arguments =>
    line depth s!"Call ({arguments.length} args)" :: outline (depth + 1) callee ++
      outlineAll (depth + 1) arguments
  | createList elements =>
    line depth s!"CreateList ({elements.length} elements)" :: outlineAll (depth + 1) elements
  | binary operator left right =>
    line depth s!"Binary {operator.name} ({operator.symbol})" :: outline (depth + 1) left ++
      outline (depth + 1) right
  | unary operator operand => line depth s!"Unary {operator.name}" :: outline (depth + 1) operand
  | stackPush inner => line depth "StackPush" :: outline (depth + 1) inner
  | stackPop inner => line depth "StackPop" :: outline (depth + 1) inner
  | giveBack value => line depth "Return" :: outline (depth + 1) value
  | function name parameters body =>
    let names := ", ".intercalate parameters
    line depth s!"FunctionDefinition {name}({names})" :: outlineAll (depth + 1) body
  | ifThen condition consequence =>
    line depth "If" :: outline (depth + 1) condition ++
      line depth "Then" :: outlineAll (depth + 1) consequence
  | ifThenElse condition consequence alternative =>
    line depth "If" :: outline (depth + 1) condition ++
      line depth "Then" :: outlineAll (depth + 1) consequence ++
      line depth "Else" :: outlineAll (depth + 1) alternative
  | block body => line depth "ScopeBlock" :: outlineAll (depth + 1) body

/-- The lines of several operations' outlines at a depth. -/
def outlineAll (depth : Nat) : List Operation → List String
  | [] => []
  | operation :: rest => outline depth operation ++ outlineAll depth rest

end

/-- Lines as a text, each with its line feed. -/
def joinLines (lines : List String) : String := String.join (lines.map (· ++ "\n"))

/-- An operation's outline as a text. -/
def render (operation : Operation) : String := joinLines (operation.outline 0)

end Operation

/-- A program's outline as a text. -/
def Program.render (program : Program) : String :=
  Operation.joinLines ("Program" :: Operation.outlineAll 1 program.body)

end TreeScript
