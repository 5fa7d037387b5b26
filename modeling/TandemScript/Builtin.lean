import TandemScript.Value.Text

/-!
# Built-in functions

Arithmetic on integers of 32 bits, which wraps around; equality of all values; the order of
integers and of strings; and `print`.
-/

namespace TandemScript

namespace Builtin

/-- All built-in functions. -/
def all : List Builtin :=
  [add, sub, mul, div, rem, eq, ne, lt, le, gt, ge, print]

/-- The global name of a built-in function. -/
def name : Builtin → String
  | add => "+"
  | sub => "-"
  | mul => "*"
  | div => "/"
  | rem => "%"
  | eq => "=="
  | ne => "!="
  | lt => "<"
  | le => "<="
  | gt => ">"
  | ge => ">="
  | print => "print"

/-- Two integer operands; the left one is checked first. -/
def bothIntegers (records : Records) (a b : Value) : Except Failure (Int32 × Int32) :=
  match a, b with
  | .int x, .int y => .ok (x, y)
  | .int _, other => .error (.notA "integer" records other)
  | other, _ => .error (.notA "integer" records other)

/-- The order of two operands of one ordered type; the left one decides the type. -/
def order (records : Records) (a b : Value) : Except Failure Ordering :=
  match a, b with
  | .int x, .int y => .ok (compare x.toInt y.toInt)
  | .str x, .str y => .ok (compare x y)
  | .int _, other => .error (.notA "integer" records other)
  | .str _, other => .error (.notA "string" records other)
  | other, _ => .error (.notA "integer or string" records other)

/-- The value of a binary function at two operands. -/
def applyBinary (records : Records) (op : Builtin) (a b : Value) : Except Failure Value :=
  match op with
  | add => do
    let (x, y) ← bothIntegers records a b
    return .int (x + y)
  | sub => do
    let (x, y) ← bothIntegers records a b
    return .int (x - y)
  | mul => do
    let (x, y) ← bothIntegers records a b
    return .int (x * y)
  | div => do
    let (x, y) ← bothIntegers records a b
    if y = 0 then throw ⟨.divisionByZero, {}⟩ else return .int (x / y)
  | rem => do
    let (x, y) ← bothIntegers records a b
    if y = 0 then throw ⟨.divisionByZero, {}⟩ else return .int (x % y)
  | eq => return .ofBool (a.same records b)
  | ne => return .ofBool (!a.same records b)
  | lt => return .ofBool (← order records a b).isLT
  | le => return .ofBool (← order records a b).isLE
  | gt => return .ofBool (← order records a b).isGT
  | ge => return .ofBool (← order records a b).isGE
  | print => return .undefined

/-- The line that `print` writes. -/
def printedLine (records : Records) (args : List Value) : String :=
  " ".intercalate (args.map (Value.text records)) ++ "\n"

/-- The result of a call, and what it prints. Only `print` takes any number of arguments. -/
def call (records : Records) (op : Builtin) (args : List Value) : Except Failure Value × String :=
  match op with
  | print => (.ok .undefined, printedLine records args)
  | op =>
    match args with
    | [a, b] => (applyBinary records op a b, "")
    | _ => (.error ⟨.arityMismatch op.name 2 args.length, {}⟩, "")

end Builtin

end TandemScript
