import TreeScript.Files
import TreeScript.Lowering.Lower
import TreeScript.Machine.Evaluate
import TreeScript.Tree.Parse

/-!
# Sessions

A session runs programs one after the other in the same global scope, so that each sees what the
earlier ones have left. The builtins live in a scope around it: a program may declare their names
anew.
-/

namespace TreeScript

/-- Why a program gives no value. -/
inductive Error where
  | unparsable (error : SyntaxError)
  | rejected (error : CompileError)
  | failed (fault : Fault)
  | unreadable (path : String) (problem : FileProblem)

/-- The message of an error, with its kind in front. -/
def Error.message : Error → String
  | unparsable error => s!"SyntaxError: {error.message}"
  | rejected error => s!"CompileError: {error.message}"
  | failed fault => fault.message
  | unreadable path problem => s!"IOError: Failed to read {path}: {problem.message}"

/-- Compile a source text. -/
def Program.ofSource (source : String) : Except Error Program := do
  let tree ← (Tree.parse source).mapError .unparsable
  (Program.ofTree tree).mapError .rejected

/-- A machine and the scope of the global variables on it. -/
structure Session where
  machine : Machine
  globals : ScopeId

namespace Session

/-- A session in which nothing but the builtins is bound. -/
def new : Session :=
  let (builtins, scopes) := Scopes.empty.new
  let heap := Builtin.install { Heap.empty with scopes } builtins
  let (globals, heap) := heap.newScope builtins
  { machine := { Machine.empty with heap }, globals }

/-- Take a step on the session's machine. -/
def perform (session : Session) (step : Evaluation Value) : Except Error Value × Session :=
  let (result, machine) := step.run.run session.machine
  (result.mapError .failed, { session with machine })

/-- Run a program. -/
def run (session : Session) (program : Program) : Except Error Value × Session :=
  session.perform (program.run session.globals)

/-- Call a function value. -/
def call (session : Session) (callee : Value) (arguments : List Value) :
    Except Error Value × Session :=
  session.perform (TreeScript.call 0 callee arguments)

/-- Compile and run a source text. -/
def evaluate (session : Session) (source : String) : Except Error Value × Session :=
  match Program.ofSource source with
  | .ok program => session.run program
  | .error error => (.error error, session)

/-- Compile and run a script file. -/
def evaluateFile (session : Session) (files : Files) (path : String) :
    Except Error Value × Session :=
  match files.read path with
  | .ok source => session.evaluate source
  | .error problem => (.error (.unreadable path problem), session)

/-- Compile and run script files in order. -/
def evaluateFiles (session : Session) (files : Files) :
    List String → List (Except Error Value) × Session
  | [] => ([], session)
  | path :: paths =>
    let (result, session) := session.evaluateFile files path
    let (results, session) := session.evaluateFiles files paths
    (result :: results, session)

/-- Bind a global variable. -/
def setGlobal (session : Session) (name : String) (value : Value) : Session :=
  let heap := session.machine.heap.define session.globals name value
  { session with machine := { session.machine with heap } }

/-- The value of a global variable or builtin. -/
def getGlobal? (session : Session) (name : String) : Option Value :=
  session.machine.heap.scopes.get? session.globals name

/-- Print a line. -/
def writeLine (session : Session) (line : String) : Session :=
  let output := session.machine.output.push line
  { session with machine := { session.machine with output } }

/-- The lines printed since they were last taken. -/
def output (session : Session) : Array String := session.machine.output

/-- Take the lines printed. -/
def takeOutput (session : Session) : Array String × Session :=
  (session.output, { session with machine := { session.machine with output := #[] } })

/-- The text of a value. -/
def render (session : Session) (value : Value) : String := session.machine.heap.render value

end Session

end TreeScript
