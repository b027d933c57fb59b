import TreeScript.Operation.Outline
import TreeScript.Session

/-!
# The command line

A program comes from the command line itself, from a file or from the standard input, in this
order of precedence. It is run, or its syntax tree or its operations are shown instead.
-/

namespace TreeScript

/-- What a command line asks for. -/
structure Invocation where
  script : Option String := none
  code : Option String := none
  showTree : Bool := false
  showOperations : Bool := false
  verbose : Bool := false
deriving DecidableEq, Repr

namespace Invocation

/-- The code in an option that carries it behind an equals sign. -/
def attachedCode? (argument : String) : Option String :=
  let mark := "--eval="
  if argument.startsWith mark then some (argument.drop mark.length).toString else none

/-- Read arguments into an invocation; nothing if one of them is not understood. -/
def read? (invocation : Invocation) : List String → Option Invocation
  | [] => some invocation
  | "--dump-cst" :: rest => { invocation with showTree := true }.read? rest
  | "--dump-ast" :: rest => { invocation with showOperations := true }.read? rest
  | "--verbose" :: rest => { invocation with verbose := true }.read? rest
  | "-e" :: code :: rest => { invocation with code := some code }.read? rest
  | "--eval" :: code :: rest => { invocation with code := some code }.read? rest
  | argument :: rest =>
    match attachedCode? argument with
    | some code => { invocation with code := some code }.read? rest
    | none =>
      if argument.startsWith "-" || invocation.script.isSome then none
      else { invocation with script := some argument }.read? rest

/-- The invocation that arguments ask for. -/
def ofArguments? (arguments : List String) : Option Invocation := read? {} arguments

end Invocation

/-- What a command leaves: its exit code and the texts it has written. -/
structure Report where
  exitCode : Nat
  standardOutput : String
  standardError : String
deriving DecidableEq, Repr

/-- The word that opens a report of an error, in bold red. -/
def errorWord : String := "\x1b[1m\x1b[31mError\x1b[39m\x1b[0m"

/-- The arrow in front of a place in the source, in cyan. -/
def placeArrow : String := "\x1b[36m-->\x1b[39m"

/-- What is written about an error in a source text. -/
def Error.explain (source : String) : Error → String
  | rejected error =>
    s!"{errorWord}: {error.message}\n  {placeArrow} {error.excerpt source}\n"
  | other => s!"{errorWord}: {other.message}\n"

/-- What is written when the program cannot be read. -/
def FileProblem.explain (problem : FileProblem) (name : String) : String :=
  s!"Error: failed to read {name}\n\nCaused by:\n    {problem.message}\n"

namespace Invocation

/-- Show the syntax tree and the operations, as far as asked for. -/
def showSource (invocation : Invocation) (source : String) : Report :=
  let tree : Except Error String :=
    if invocation.showTree then
      ((Tree.parse source).mapError .unparsable).map (·.render ++ "\n")
    else .ok ""
  match tree with
  | .error error => ⟨1, "", error.explain source⟩
  | .ok tree =>
    let operations : Except Error String :=
      if invocation.showOperations then (Program.ofSource source).map (·.render) else .ok ""
    match operations with
    | .error error => ⟨1, tree, error.explain source⟩
    | .ok operations => ⟨0, tree ++ operations, ""⟩

/-- Run a source text in a fresh session. What it prints is followed by its value, unless that is
null. -/
def runSource (source : String) : Report :=
  let (result, session) := Session.new.evaluate source
  let printed := Operation.joinLines session.output.toList
  match result with
  | .error error => ⟨1, printed, error.explain source⟩
  | .ok value =>
    ⟨0, if value.isNull then printed else printed ++ session.render value ++ "\n", ""⟩

/-- Where the program comes from: the name of the place, and its text if it can be read. -/
def source (invocation : Invocation) (files : Files) (standardInput : ByteArray) :
    String × Except FileProblem String :=
  match invocation.code, invocation.script with
  | some code, _ => ("--eval", .ok code)
  | none, some path => (path, files.read path)
  | none, none => ("stdin", textOfBytes standardInput)

/-- Do what is asked for with a program, or say that it cannot be read. -/
def report (invocation : Invocation) (name : String) (source : Except FileProblem String) :
    Report :=
  match source with
  | .error problem => ⟨1, "", problem.explain name⟩
  | .ok source =>
    if invocation.showTree || invocation.showOperations then invocation.showSource source
    else runSource source

/-- Carry out an invocation among files. -/
def perform (invocation : Invocation) (files : Files) (standardInput : ByteArray) : Report :=
  let (name, source) := invocation.source files standardInput
  invocation.report name source

end Invocation

end TreeScript
