/-
The program.

It reads the one file that the arguments name, and writes the report.
-/
import TemplateTree.CommandLine

namespace TemplateTree.CommandLine

/-- The name the program goes by in its help. -/
def programName : String :=
  "weft"

/-- The number of a failure, which the system gives with either sign. -/
def failureNumber (code : UInt32) : Nat :=
  min code.toNat (UInt32.size - code.toNat)

/-- The cause of a failure that the system reports. -/
def failureOf (e : IO.Error) : ReadFailure :=
  match e with
  | .noFileOrDirectory .. => .notFound
  | .inappropriateType _ code _ | .invalidArgument _ code _ =>
    if failureNumber code = 20 then .notDirectory
    else if failureNumber code = 21 then .isDirectory
    else if failureNumber code = 36 then .nameTooLong
    else .other (toString e)
  | _ => .other (toString e)

/-- Reads a file as text. -/
def readFile (path : String) : IO (Except ReadFailure String) := do
  match ← (IO.FS.readBinFile path).toBaseIO with
  | .ok bytes => return decodeText bytes
  | .error e => return .error (failureOf e)

end TemplateTree.CommandLine

open TemplateTree.CommandLine in
/-- Writes the report on the arguments and ends with its code. -/
def main (arguments : List String) : IO UInt32 := do
  let path := (Request.ofArguments arguments).toOption.bind Request.path?
  let content ← match path with
    | some path => readFile path
    | none => pure (.error .notFound)
  let result := report programName arguments fun _ => content
  IO.print result.output
  IO.eprint result.errors
  return result.code.toUInt32
