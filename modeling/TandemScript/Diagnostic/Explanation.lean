import TandemScript.Failure

/-!
# Explanations

What the code of a diagnostic stands for, in one line and at length.
-/

namespace TandemScript

/-- The explanation of one code. -/
structure Explanation where
  code : String
  /-- One line, for overviews. -/
  short : String
  /-- The whole text. -/
  long : String
  deriving DecidableEq, Repr

namespace Explanation

def arityMismatch : Explanation where
  code := "SJS-E001"
  short := "wrong number of arguments"
  long := "## SJS-E001: wrong number of arguments

A function was called with a different number of arguments than it
declares. Arity is exact: there are no optional or rest parameters, and
missing arguments are not filled in with `undefined`.

**Example:**

    function fact(n) \x7b ... \x7d
    fact(1, 2)

The receiver (`this`) is not counted. Built-in binary operators such as
`+` and `<` take exactly two arguments.
"

def undefinedVariable : Explanation where
  code := "SJS-E002"
  short := "assignment to an undeclared variable"
  long := "## SJS-E002: unknown local variable

An assignment named a variable that is neither a parameter nor declared
with `var` in the current function.

**Example:**

    x = 1

**Fix:**

    var x = 1

Reads of unknown names do not raise this error; they resolve in the
global environment and yield `undefined` when nothing is bound there.
"

def typeMismatch : Explanation where
  code := "SJS-E003"
  short := "value has the wrong type"
  long := "## SJS-E003: type error

An operation received a value of a type it cannot handle. Common causes:

- calling something that is not a function, e.g. `var f = 1; f()`
- reading or writing a field on a non-object, e.g. `(1).x`
- comparing an integer with a string

The message names the type that was expected and the value found.
"

def invalidField : Explanation where
  code := "SJS-E004"
  short := "write to a field not present in the object's shape"
  long := "## SJS-E004: invalid field

Objects have a fixed set of fields, decided by the literal that created
them. Writing a field the literal did not list is an error; fields cannot
be added after creation. Reading such a field yields `undefined`.

**Example:**

    var o = \x7b x: 1 \x7d
    o.y = 2
"

def divisionByZero : Explanation where
  code := "SJS-E005"
  short := "division by zero"
  long := "## SJS-E005: division by zero

The right operand of `/` or `%` was zero. Integer arithmetic has no
infinity or NaN to fall back on.
"

def exhausted : Explanation where
  code := "SJS-E006"
  short := "stack or heap exhausted"
  long := "## SJS-E006: resource exhausted

The virtual machine ran out of stack cells or heap cells.

- stack: usually unbounded recursion. Raise the limit with
  `--stack-size` if the program is genuinely deep. The reference
  interpreter allows one nested call per 16 stack cells, up to 10000.
- heap: objects are never reclaimed within a run. Raise the limit with
  `--heap-size`, or pass `--grow-heap` to let the heap double in size
  instead of aborting.
"

def inconsistent : Explanation where
  code := "SJS-E007"
  short := "internal inconsistency"
  long := "## SJS-E007: internal inconsistency

The program tree or the bytecode broke an assumption the engine relies
on: an unknown opcode, a bad dictionary index, or a statement node such
as `return` used where a value is required. This usually points at a
malformed program file rather than a mistake in the script's logic.
"

/-- All explanations in the order of their codes. -/
def all : List Explanation :=
  [arityMismatch, undefinedVariable, typeMismatch, invalidField, divisionByZero, exhausted,
    inconsistent]

/-- The explanation of a code, whose ASCII letters may have either case. -/
def find? (code : String) : Option Explanation :=
  all.find? fun entry ↦ entry.code.map Char.toLower = code.map Char.toLower

end Explanation

end TandemScript
