/-!
# Operations

A program is a list of operations, each a tree: reading a variable, combining two values, calling
a function and so on. Operations say how names are resolved and when a value is set aside on the
value stack; they hold no positions in a source text.
-/

namespace TreeScript

/-- How setting a variable finds the binding it writes. -/
inductive Policy where
  /-- Some scope in reach must bind the name already. -/
  | mustExist
  /-- The innermost scope must not bind the name yet. -/
  | cannotExist
  /-- The nearest binding is written, or a new one made. -/
  | unconstrained
deriving DecidableEq, Repr

/-- The name of a policy in outlines. -/
def Policy.name : Policy → String
  | mustExist => "MustExist"
  | cannotExist => "CannotExist"
  | unconstrained => "Unconstrained"

/-- A constant. Numbers keep the narrowest width that they were read in. -/
inductive Literal where
  | bool (value : Bool)
  | int (value : Int32)
  | long (value : Int64)
  | float (value : Float32)
  | double (value : Float)
  | string (value : String)
  | null

/-- Equality of constants; floating-point numbers are equal when they compare equal. -/
def Literal.same : Literal → Literal → Bool
  | bool a, bool b => a == b
  | int a, int b => a == b
  | long a, long b => a == b
  | float a, float b => a == b
  | double a, double b => a == b
  | string a, string b => a == b
  | null, null => true
  | _, _ => false

/-- The operators between two operands. -/
inductive BinaryOperator where
  | add
  | sub
  | mul
  | div
  | mod
  | pow
  | equal
  | notEqual
  | less
  | greater
  | lessEqual
  | greaterEqual
  | both
  | either
  | bitOr
  | bitAnd
  | bitXor
deriving DecidableEq, Repr

namespace BinaryOperator

/-- Every operator. -/
def all : List BinaryOperator :=
  [add, sub, mul, div, mod, pow, equal, notEqual, less, greater, lessEqual, greaterEqual, both,
    either, bitOr, bitAnd, bitXor]

/-- The sign of an operator in a source text. -/
def symbol : BinaryOperator → String
  | add => "+"
  | sub => "-"
  | mul => "*"
  | div => "/"
  | mod => "%"
  | pow => "**"
  | equal => "=="
  | notEqual => "!="
  | less => "<"
  | greater => ">"
  | lessEqual => "<="
  | greaterEqual => ">="
  | both => "&&"
  | either => "||"
  | bitOr => "|"
  | bitAnd => "&"
  | bitXor => "^"

/-- The name of an operator in outlines. -/
def name : BinaryOperator → String
  | add => "Add"
  | sub => "Sub"
  | mul => "Mul"
  | div => "Div"
  | mod => "Mod"
  | pow => "Pow"
  | equal => "Eq"
  | notEqual => "NotEq"
  | less => "Lt"
  | greater => "Gt"
  | lessEqual => "LtEq"
  | greaterEqual => "GtEq"
  | both => "And"
  | either => "Or"
  | bitOr => "BitOr"
  | bitAnd => "BitAnd"
  | bitXor => "BitXor"

/-- The operators that can be combined with an assignment. -/
def compoundable : List BinaryOperator := [add, sub, mul, div, mod, pow]

/-- The operator with a given sign. -/
def ofSymbol? (text : String) : Option BinaryOperator := all.find? (·.symbol == text)

/-- The operator that is combined with an assignment in a given sign. -/
def ofCompound? (text : String) : Option BinaryOperator :=
  compoundable.find? fun operator => operator.symbol ++ "=" == text

end BinaryOperator

/-- The operators in front of one operand. -/
inductive UnaryOperator where
  | negate
  | plus
  | invert
  | bitInvert
deriving DecidableEq, Repr

namespace UnaryOperator

/-- The name of an operator in outlines. -/
def name : UnaryOperator → String
  | negate => "Negate"
  | plus => "Plus"
  | invert => "Not"
  | bitInvert => "BitNot"

/-- The operator with a given sign. -/
def ofSymbol? (text : String) : Option UnaryOperator :=
  match text with
  | "-" => some negate
  | "+" => some plus
  | "!" => some invert
  | "~" => some bitInvert
  | _ => none

end UnaryOperator

/-- An operation. -/
inductive Operation where
  | literal (value : Literal)
  | getVariable (name : String)
  /-- Evaluate and bind; a declaration binds in the innermost scope. -/
  | setVariable (name : String) (value : Operation) (policy : Policy) (declaration : Bool)
  | getMember (object : Operation) (member : String)
  | setMember (object : Operation) (member : String) (value : Operation)
  | getIndex (object index : Operation)
  | setIndex (object index value : Operation)
  | call (callee : Operation) (arguments : List Operation)
  | createList (elements : List Operation)
  | binary (operator : BinaryOperator) (left right : Operation)
  | unary (operator : UnaryOperator) (operand : Operation)
  /-- Evaluate and also set the value aside on the value stack. -/
  | stackPush (inner : Operation)
  /-- Evaluate, and yield the value that was set aside last instead. -/
  | stackPop (inner : Operation)
  /-- Leave the function or program with a value. -/
  | giveBack (value : Operation)
  /-- Make a function over the current scope. -/
  | function (name : String) (parameters : List String) (body : List Operation)
  | ifThen (condition : Operation) (consequence : List Operation)
  | ifThenElse (condition : Operation) (consequence alternative : List Operation)
  | block (body : List Operation)

namespace Operation

mutual

/-- The number of operations in a tree. -/
def count : Operation → Nat
  | literal _ => 1
  | getVariable _ => 1
  | setVariable _ value _ _ => 1 + count value
  | getMember object _ => 1 + count object
  | setMember object _ value => 1 + count object + count value
  | getIndex object index => 1 + count object + count index
  | setIndex object index value => 1 + count object + count index + count value
  | call callee arguments => 1 + count callee + countAll arguments
  | createList elements => 1 + countAll elements
  | binary _ left right => 1 + count left + count right
  | unary _ operand => 1 + count operand
  | stackPush inner => 1 + count inner
  | stackPop inner => 1 + count inner
  | giveBack value => 1 + count value
  | function _ _ body => 1 + countAll body
  | ifThen condition consequence => 1 + count condition + countAll consequence
  | ifThenElse condition consequence alternative =>
    1 + count condition + countAll consequence + countAll alternative
  | block body => 1 + countAll body

/-- The number of operations in several trees. -/
def countAll : List Operation → Nat
  | [] => 0
  | operation :: rest => count operation + countAll rest

end

mutual

/-- Equality of operations, with constants compared by `Literal.same`. -/
def same : Operation → Operation → Bool
  | literal a, other =>
    match other with
    | literal b => a.same b
    | _ => false
  | getVariable name, other =>
    match other with
    | getVariable name' => name == name'
    | _ => false
  | setVariable name value policy declaration, other =>
    match other with
    | setVariable name' value' policy' declaration' =>
      name == name' && same value value' && policy == policy' && declaration == declaration'
    | _ => false
  | getMember object member, other =>
    match other with
    | getMember object' member' => same object object' && member == member'
    | _ => false
  | setMember object member value, other =>
    match other with
    | setMember object' member' value' =>
      same object object' && member == member' && same value value'
    | _ => false
  | getIndex object index, other =>
    match other with
    | getIndex object' index' => same object object' && same index index'
    | _ => false
  | setIndex object index value, other =>
    match other with
    | setIndex object' index' value' =>
      same object object' && same index index' && same value value'
    | _ => false
  | call callee arguments, other =>
    match other with
    | call callee' arguments' => same callee callee' && sameAll arguments arguments'
    | _ => false
  | createList elements, other =>
    match other with
    | createList elements' => sameAll elements elements'
    | _ => false
  | binary operator left right, other =>
    match other with
    | binary operator' left' right' =>
      operator == operator' && same left left' && same right right'
    | _ => false
  | unary operator operand, other =>
    match other with
    | unary operator' operand' => operator == operator' && same operand operand'
    | _ => false
  | stackPush inner, other =>
    match other with
    | stackPush inner' => same inner inner'
    | _ => false
  | stackPop inner, other =>
    match other with
    | stackPop inner' => same inner inner'
    | _ => false
  | giveBack value, other =>
    match other with
    | giveBack value' => same value value'
    | _ => false
  | function name parameters body, other =>
    match other with
    | function name' parameters' body' =>
      name == name' && parameters == parameters' && sameAll body body'
    | _ => false
  | ifThen condition consequence, other =>
    match other with
    | ifThen condition' consequence' =>
      same condition condition' && sameAll consequence consequence'
    | _ => false
  | ifThenElse condition consequence alternative, other =>
    match other with
    | ifThenElse condition' consequence' alternative' =>
      same condition condition' && sameAll consequence consequence' &&
        sameAll alternative alternative'
    | _ => false
  | block body, other =>
    match other with
    | block body' => sameAll body body'
    | _ => false

/-- Equality of lists of operations. -/
def sameAll : List Operation → List Operation → Bool
  | [], other => other.isEmpty
  | operation :: rest, other =>
    match other with
    | operation' :: rest' => same operation operation' && sameAll rest rest'
    | [] => false

end

end Operation

/-- A compiled program: its operations in order. -/
structure Program where
  body : List Operation

end TreeScript
