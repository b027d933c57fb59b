import TreeScript.Dictionary

/-!
# Script files

Files are bytes under their paths. A script is a file whose bytes are text in UTF-8.
-/

namespace TreeScript

/-- Why a file cannot be read as a script. -/
inductive FileProblem where
  | missing
  | notText
  /-- Anything else that the system reports, in its own words. -/
  | refused (reason : String)
deriving DecidableEq, Repr

/-- The wording of a problem. -/
def FileProblem.message : FileProblem → String
  | missing => "No such file or directory (os error 2)"
  | notText => "stream did not contain valid UTF-8"
  | refused reason => reason

/-- The files within reach, by their paths. -/
abbrev Files := Dictionary ByteArray

/-- Bytes as text. -/
def textOfBytes (bytes : ByteArray) : Except FileProblem String :=
  match String.fromUTF8? bytes with
  | some text => return text
  | none => throw .notText

/-- Read a file as text. -/
def Files.read (files : Files) (path : String) : Except FileProblem String :=
  match files.get? path with
  | some bytes => textOfBytes bytes
  | none => throw .missing

end TreeScript
