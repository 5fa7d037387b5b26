import TandemScript.CommandLine.Help
import TandemScript.Config
import TandemScript.Engine

/-!
# Arguments

What the arguments of the command line ask for. Options may stand before and after the file or the
code that they go with, each at most once; a value follows its option as the next argument or after
an equals sign; and after `--` nothing is an option.
-/

namespace TandemScript.CommandLine

/-- What was given to a subcommand. -/
structure Options where
  /-- The file or the code that the subcommand is about. -/
  operand : Option String := none
  engine : Engine := .machine
  config : Config := {}
  json : Bool := false
  trace : Bool := false

/-- What the program is asked to do. -/
inductive Command where
  | run (path : String) (options : Options)
  | disasm (path : String)
  | explain (code : String)

/-- Arguments that ask for nothing to be run. -/
inductive Exit where
  /-- They ask for a text. -/
  | text (s : String)
  /-- They are not understood. -/
  | usage

/-- A natural number below `2 ^ 64` in decimal digits, with or without a plus sign. -/
def size? (s : String) : Option Nat :=
  let digits := match s.toList with
    | '+' :: rest => rest
    | cs => cs
  if digits.isEmpty || !digits.all Char.isDigit then none
  else
    let n := digits.foldl (fun n c ↦ 10 * n + (c.toNat - '0'.toNat)) 0
    if n < 0x10000000000000000 then some n else none

/-! ## Subcommands -/

/-- The options of a subcommand, and what it takes besides. -/
structure Grammar where
  help : String
  longHelp : String
  /-- What an option without a value changes. -/
  flag? : String → Option (Options → Options)
  /-- Whether an option takes a value. -/
  takesValue : String → Bool := fun _ ↦ false
  /-- What an option with a value changes, unless it refuses the value. -/
  value? : String → String → Option (Options → Options) := fun _ _ ↦ none
  emptyOperand : Bool := false

/-- The option that every subcommand has. -/
def traceFlag? : String → Option (Options → Options)
  | "trace" => some fun options ↦ { options with trace := true }
  | _ => none

def Grammar.run : Grammar where
  help := runHelp
  longHelp := runLongHelp
  flag?
    | "grow-heap" => some fun options ↦ { options with config.policy := .grow }
    | "json" => some fun options ↦ { options with json := true }
    | name => traceFlag? name
  takesValue name := name ∈ ["engine", "stack-size", "heap-size"]
  value?
    | "engine", "vm" => some fun options ↦ { options with engine := .machine }
    | "engine", "ast" => some fun options ↦ { options with engine := .tree }
    | "stack-size", value => (size? value).map fun n options ↦
      { options with config.stackSize := n }
    | "heap-size", value => (size? value).map fun n options ↦
      { options with config.heapSize := n }
    | _, _ => none

def Grammar.disasm : Grammar where
  help := disasmHelp
  longHelp := disasmHelp
  flag? := traceFlag?

def Grammar.explain : Grammar where
  help := explainHelp
  longHelp := explainHelp
  flag? := traceFlag?
  emptyOperand := true

namespace Grammar

/-- Take an argument that is no option. There is only one, and a path is not empty. -/
def operand (g : Grammar) (arg : String) (options : Options) : Except Exit Options :=
  if options.operand.isSome || (arg.isEmpty && !g.emptyOperand) then .error .usage
  else .ok { options with operand := some arg }

/-- Take arguments that are no options. -/
def operands (g : Grammar) : List String → Options → Except Exit Options
  | [], options => .ok options
  | arg :: rest, options => do
    g.operands rest (← g.operand arg options)

/-- Whether an argument has the form of an option. -/
def isOption (arg : String) : Bool :=
  arg.startsWith "-" && arg != "-"

/-- A long option without its dashes, split at the first equals sign. -/
def splitLong (arg : String) : String × Option String :=
  let cs := arg.toList.drop 2
  let name := String.ofList (cs.takeWhile (· != '='))
  match cs.dropWhile (· != '=') with
  | _ :: value => (name, some (String.ofList value))
  | [] => (name, none)

/-- Take the value of an option. -/
def value (g : Grammar) (name value : String) (options : Options) : Except Exit Options :=
  match g.value? name value with
  | some change => .ok (change options)
  | none => .error .usage

/-- Take the arguments of a subcommand, where some options have been given before. -/
def scan (g : Grammar) (given : List String) (options : Options) :
    List String → Except Exit Options
  | [] => .ok options
  | arg :: rest =>
    if !isOption arg then do
      g.scan given (← g.operand arg options) rest
    else if arg = "--" then g.operands rest options
    else if !arg.startsWith "--" then
      .error (if arg.startsWith "-h" then .text g.help else .usage)
    else
      let (name, attached) := splitLong arg
      if given.contains name then .error .usage
      else if g.takesValue name then
        match attached, rest with
        | some value, rest => do
          g.scan (name :: given) (← g.value name value options) rest
        | none, value :: rest =>
          if isOption value then .error .usage
          else do
            g.scan (name :: given) (← g.value name value options) rest
        | none, [] => .error .usage
      else if attached.isSome then .error .usage
      else if name = "help" then .error (.text g.longHelp)
      else
        match g.flag? name with
        | some change => g.scan (name :: given) (change options) rest
        | none => .error .usage

/-- Take all arguments of a subcommand, which needs a file or a code. -/
def parse (g : Grammar) (args : List String) : Except Exit (String × Options) := do
  let options ← g.scan [] {} args
  match options.operand with
  | some operand => return (operand, options)
  | none => throw .usage

end Grammar

/-! ## The program -/

/-- The answer to `help`. -/
def helpOn : List String → Exit
  | [] => .text help
  | ["run"] => .text runLongHelp
  | ["disasm"] => .text disasmHelp
  | ["explain"] => .text explainHelp
  | ["help"] => .text helpHelp
  | _ => .usage

/-- Take the arguments of the program. -/
def parse : List String → (trace : Bool := false) → Except Exit Command
  | [], _ => .error .usage
  | "run" :: args, trace => do
    let (path, options) ← Grammar.run.parse args
    return .run path { options with trace := options.trace || trace }
  | "disasm" :: args, _ => do
    let (path, _) ← Grammar.disasm.parse args
    return .disasm path
  | "explain" :: args, _ => do
    let (code, _) ← Grammar.explain.parse args
    return .explain code
  | "help" :: args, _ => .error (helpOn args)
  | "--trace" :: args, trace => if trace then .error .usage else parse args true
  | "--help" :: _, _ => .error (.text help)
  | "--version" :: _, _ => .error (.text version)
  | arg :: _, _ =>
    .error <|
      if arg.startsWith "-h" then .text help
      else if arg.startsWith "-V" then .text version
      else .usage

end TandemScript.CommandLine
