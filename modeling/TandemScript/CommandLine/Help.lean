/-!
# Help texts

What the command line says about itself.
-/

namespace TandemScript.CommandLine

/-- The answer to `--version`. -/
def version : String := "stackjs 0.0.0\n"

/-- Help on the program. -/
def help : String :=
"Run JSON program trees on the stackjs VM or the reference interpreter

Usage: stackjs [OPTIONS] <COMMAND>

Commands:
  run      Execute a program and print its result
  disasm   Print the bytecode listing for a program
  explain  Explain a diagnostic code such as SJS-E001
  help     Print this message or the help of the given subcommand(s)

Options:
      --trace    Log every call and return with a stack dump (overrides RUST_LOG)
  -h, --help     Print help
  -V, --version  Print version
"

/-- Help on `run` in short. -/
def runHelp : String :=
"Execute a program and print its result

Usage: stackjs run [OPTIONS] <PATH>

Arguments:
  <PATH>  Program tree as JSON

Options:
      --engine <ENGINE>          [default: vm] [possible values: vm, ast]
      --trace                    Log every call and return with a stack dump (overrides RUST_LOG)
      --stack-size <STACK_SIZE>  Operand stack capacity in cells [default: 65536]
      --heap-size <HEAP_SIZE>    Heap capacity in cells [default: 65536]
      --grow-heap                Double the heap when it fills instead of failing
      --json                     Report failures as JSON on stderr
  -h, --help                     Print help (see more with '--help')
"

/-- Help on `run` at length. -/
def runLongHelp : String :=
"Execute a program and print its result

Usage: stackjs run [OPTIONS] <PATH>

Arguments:
  <PATH>
          Program tree as JSON

Options:
      --engine <ENGINE>
          Possible values:
          - vm:  Bytecode compiler and stack VM
          - ast: Tree-walking reference interpreter
         \x20
          [default: vm]

      --trace
          Log every call and return with a stack dump (overrides RUST_LOG)

      --stack-size <STACK_SIZE>
          Operand stack capacity in cells
         \x20
          [default: 65536]

      --heap-size <HEAP_SIZE>
          Heap capacity in cells
         \x20
          [default: 65536]

      --grow-heap
          Double the heap when it fills instead of failing

      --json
          Report failures as JSON on stderr

  -h, --help
          Print help (see a summary with '-h')
"

/-- Help on `disasm`. -/
def disasmHelp : String :=
"Print the bytecode listing for a program

Usage: stackjs disasm [OPTIONS] <PATH>

Arguments:
  <PATH>\x20\x20

Options:
      --trace  Log every call and return with a stack dump (overrides RUST_LOG)
  -h, --help   Print help
"

/-- Help on `explain`. -/
def explainHelp : String :=
"Explain a diagnostic code such as SJS-E001

Usage: stackjs explain [OPTIONS] <CODE>

Arguments:
  <CODE>\x20\x20

Options:
      --trace  Log every call and return with a stack dump (overrides RUST_LOG)
  -h, --help   Print help
"

/-- Help on `help`. -/
def helpHelp : String :=
"Print this message or the help of the given subcommand(s)

Usage: stackjs help [COMMAND]...

Arguments:
  [COMMAND]...  Print help for the subcommand(s)
"

end TandemScript.CommandLine
