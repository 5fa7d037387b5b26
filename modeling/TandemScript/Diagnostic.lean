import TandemScript.Failure
import TandemScript.Json.Reader

/-!
# Diagnostics

Failures as they are reported to a user: a text for people, coloured where that can be shown, or
one JSON object for programs.
-/

namespace TandemScript

/-- A report of something that went wrong. -/
structure Diagnostic where
  code : Option String := none
  message : String
  line : Option UInt32 := none
  notes : List String := []
  suggestion : Option String := none
  deriving DecidableEq, Repr

/-- What a user can do about a failure. -/
def Cause.suggestion? : Cause → Option String
  | undefinedVariable _ => some "declare the variable with `var` before assigning to it"
  | exhausted .stack _ => some "raise --stack-size or check for unbounded recursion"
  | exhausted .heap _ => some "raise --heap-size or pass --grow-heap"
  | _ => none

namespace Diagnostic

def ofFailure (failure : Failure) : Diagnostic where
  code := some failure.cause.code
  message := failure.cause.text
  line := failure.context.line
  notes :=
    (failure.context.function.map fun function ↦ s!"in function '{function}'").toList ++
      (failure.context.op.map fun op ↦ s!"while executing {op}").toList
  suggestion := failure.cause.suggestion?

/-- Text under a style of the terminal, or plain text. -/
def styled (colored : Bool) (style s : String) : String :=
  if colored then "\x1b[" ++ style ++ "m" ++ s ++ "\x1b[0m" else s

/-- The report for people. -/
def render (colored : Bool) (d : Diagnostic) : String :=
  let head := match d.code with
    | some code => s!"error[{code}]"
    | none => "error"
  let detail (s : String) := "  " ++ styled colored "2" "=" ++ " " ++ s ++ "\n"
  let place (line : UInt32) := "  " ++ styled colored "36" "-->" ++ s!" line {line}\n"
  let parts :=
    [styled colored "1;31" head ++ ": " ++ styled colored "1" d.message ++ "\n"] ++
      (d.line.map place).toList ++
      (d.notes.map fun note ↦ detail ("note: " ++ note)) ++
      (d.suggestion.map fun suggestion ↦ detail ("suggestion: " ++ suggestion)).toList ++
      (d.code.map fun code ↦ detail ("run `stackjs explain " ++ code ++ "` for details")).toList
  String.join parts

/-- The report for programs, its keys in alphabetical order. -/
def toJson (d : Diagnostic) : Json :=
  .record <|
    (d.code.map fun code ↦ ("code", Json.text code)).toList ++
      (d.line.map fun line ↦ ("line", Json.natural line.toNat)).toList ++
      [("message", .text d.message), ("notes", .texts d.notes), ("severity", .text "error")] ++
      (d.suggestion.map fun suggestion ↦ ("suggestion", Json.text suggestion)).toList

end Diagnostic

end TandemScript
