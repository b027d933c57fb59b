import TreeScript.CommandLine

/-!
# The program

Reads the program that the arguments name, carries the invocation out and writes its report.
-/

namespace TreeScript

/-- Read a file of the system. -/
def readSystemFile (path : String) : IO (Except FileProblem ByteArray) := do
  try
    return .ok (← IO.FS.readBinFile path)
  catch
    | .noFileOrDirectory .. => return .error .missing
    | error => return .error (.refused (toString error))

/-- Read the standard input to its end. -/
partial def readStandardInput (stream : IO.FS.Stream) (before : ByteArray) : IO ByteArray := do
  let bytes ← stream.read 65536
  if bytes.isEmpty then return before else readStandardInput stream (before ++ bytes)

/-- The files that an invocation needs: its script. -/
def filesOf (invocation : Invocation) : IO (Except FileProblem Files) := do
  match invocation.code, invocation.script with
  | none, some path =>
    return (← readSystemFile path).map fun bytes => Dictionary.empty.insert path bytes
  | _, _ => return .ok .empty

/-- The standard input, if an invocation takes its program from there. -/
def inputOf (invocation : Invocation) : IO ByteArray := do
  match invocation.code, invocation.script with
  | none, none => readStandardInput (← IO.getStdin) .empty
  | _, _ => return .empty

/-- Carry out an invocation and write its report. -/
def carryOut (invocation : Invocation) : IO UInt32 := do
  let report ←
    match ← filesOf invocation with
    | .ok files => pure (invocation.perform files (← inputOf invocation))
    | .error problem => pure (invocation.report (invocation.script.getD "") (.error problem))
  (← IO.getStdout).putStr report.standardOutput
  (← IO.getStderr).putStr report.standardError
  return UInt32.ofNat report.exitCode

end TreeScript

/-- Carry out the command line. -/
def main (arguments : List String) : IO UInt32 := do
  match TreeScript.Invocation.ofArguments? arguments with
  | some invocation => TreeScript.carryOut invocation
  | none =>
    (← IO.getStderr).putStrLn "usage: [--dump-cst] [--dump-ast] [--verbose] [-e CODE | SCRIPT]"
    return 2
