import TandemScript.CommandLine.Arguments
import TandemScript.CommandLine.Contents
import TandemScript.Diagnostic
import TandemScript.Diagnostic.Explanation
import TandemScript.Listing
import TandemScript.Syntax.Format

/-!
# The command line

What each subcommand answers, given the contents of the file that it names. Results go to the
standard output and complaints to the standard error output.
-/

namespace TandemScript.CommandLine

/-- What the program does when it ends. -/
structure Response where
  status : UInt32 := 0
  stdout : String := ""
  stderr : String := ""
  deriving DecidableEq, Repr

/-- The report of a failure. -/
def failed (failure : Failure) (json : Bool) (stdout stderr : String) : Response :=
  let d := Diagnostic.ofFailure failure
  let report := if json then d.toJson.written ++ "\n" else d.render false
  { status := 1, stdout, stderr := stderr ++ report }

/-- Read a program from the contents of a file. -/
def load (path : String) : Contents → Except Response Script
  | .error e => .error { status := 1, stderr := s!"Error reading {path}: {e.text}\n" }
  | .ok source =>
    match Script.read? source with
    | none => .error { status := 1, stderr := s!"Invalid program tree in {path}: malformed\n" }
    | some script => .ok script

/-- The events of a run, a line each. -/
def eventText (event : Event) : String :=
  let fields := event.fields.map fun (name, text) ↦ s!" {name}={text}"
  event.level.text ++ ": " ++ event.message ++ String.join fields ++ "\n"

/-- Run a program and print its result, unless that is undefined. -/
def run (options : Options) (script : Script) : Response :=
  let st := RunState.new options.config (if options.trace then some .trace else none)
  let log (st : RunState) := String.join (st.log.events.toList.map eventText)
  match script.runOn options.engine amplySteps st with
  | .ok .undefined st => { stdout := st.output, stderr := log st }
  | .ok value st =>
    { stdout := st.output ++ value.text st.records ++ "\n", stderr := log st }
  | .error (.failed failure) st => failed failure options.json st.output (log st)
  | .error .unfinished st => { status := 1, stdout := st.output, stderr := log st }

/-- List the bytecode of a program. -/
def disasm (script : Script) : Response :=
  match script.compile (RunState.new {}).toPool with
  | .ok main pool => { stdout := main.listing pool.dict {} }
  | .error failure _ => failed failure false "" ""

/-- Explain a code. -/
def explain (code : String) : Response :=
  match Explanation.find? code with
  | some entry => { stdout := entry.long }
  | none => { status := 1, stderr := s!"Unknown diagnostic code '{code}'\n" }

/-- Answer with the program in a file, if there is one. -/
def withScript (path : String) (contents : Contents) (response : Script → Response) : Response :=
  match load path contents with
  | .ok script => response script
  | .error complaint => complaint

section

variable {m : Type → Type} [Monad m] (read : String → m Contents)

/-- Do what is asked for. A file is read once, and only where the command names one. -/
def Command.perform : Command → m Response
  | run path options => return withScript path (← read path) (CommandLine.run options)
  | disasm path => return withScript path (← read path) CommandLine.disasm
  | explain code => return CommandLine.explain code

end

/-- The answer where nothing is to be run. -/
def Exit.response : Exit → Response
  | text s => { stdout := s }
  | usage => { status := 2, stderr := "For more information, try '--help'.\n" }

/-- What the program answers to its arguments. -/
def answer {m : Type → Type} [Monad m] (read : String → m Contents) (args : List String) :
    m Response :=
  match parse args with
  | .ok command => command.perform read
  | .error exit => return exit.response

end TandemScript.CommandLine
