import TandemScript.CommandLine

/-!
# The program

Reads the file that the arguments name, and writes what the command line answers.
-/

namespace TandemScript.CommandLine

/-- Why the system could not read a file. It may give its numbers with a minus sign. -/
def ReadError.ofSystem (e : IO.Error) : ReadError :=
  let named (number : UInt32) :=
    (ReadError.ofNumber? (min number.toNat (-number).toNat)).getD (.other (toString e))
  match e with
  | .noFileOrDirectory .. => .notFound
  | .permissionDenied .. => .denied
  | .inappropriateType _ number _ | .invalidArgument _ number _ | .otherError number _ =>
    named number
  | _ => .other (toString e)

/-- The contents of a file. -/
def readContents (path : String) : IO Contents := do
  try
    match String.fromUTF8? (← IO.FS.readBinFile path) with
    | some text => return .ok text
    | none => return .error .notText
  catch e => return .error (.ofSystem e)

end TandemScript.CommandLine

open TandemScript.CommandLine in
def main (args : List String) : IO UInt32 := do
  let response ← answer readContents args
  IO.print response.stdout
  (← IO.getStdout).flush
  IO.eprint response.stderr
  return response.status
