import TandemScript.Json.Reader
import TandemScript.Syntax.Tree

/-!
# Program trees as JSON

A node is an object with one field, named for the kind of node, that holds the parts of the node.
Parts are written as an object in declaration order and read as an object in any order, unknown
fields ignored, or as an array in declaration order. Lines may be left out.

Reading stops at a nesting of `Script.maxNesting` arrays and objects, counted where they are
really read: what an unknown field holds may nest to any depth.
-/

namespace TandemScript

/-! ## Reading parts -/

namespace Json

/-- The values of the known fields in the order of `names`. Every key needs a text, and no known
field may be given twice. -/
def knownFields? (names : List String) (fields : List (Option String × Json)) :
    Option (List (Option Json)) := do
  let keys ← fields.mapM Prod.fst
  if names.any fun name ↦ 1 < keys.count name then none
  else return names.map fun name ↦ (fields.find? (·.1 == some name)).map Prod.snd

/-- The parts called `names`, from an object that names them or an array that lists them. A part
may be missing; an array may not hold more. -/
def parts? (names : List String) : Json → Option (List (Option Json))
  | .object fields => knownFields? names fields
  | .array items =>
    if names.length < items.length then none
    else some (names.mapIdx fun i _ ↦ items[i]?)
  | _ => none

/-- A string that has a text. -/
def text? : Json → Option String
  | .string text => text
  | _ => none

/-- A list of strings that have a text. -/
def texts? : Json → Option (List String)
  | .array items => items.mapM text?
  | _ => none

def bool? : Json → Option Bool
  | .bool b => some b
  | _ => none

/-- An integer of 32 bits with a sign. -/
def int32? : Json → Option Int32
  | .integer n =>
    if Int32.minValue.toInt ≤ n ∧ n ≤ Int32.maxValue.toInt then some (.ofInt n) else none
  | _ => none

/-- A natural number below a bound. -/
def natBelow? (bound : Nat) : Json → Option Nat
  | .integer (.ofNat n) => if n < bound then some n else none
  | _ => none

/-- A line number; one that is missing is not known. -/
def line? : Option Json → Option UInt32
  | none => some 0
  | some json => UInt32.ofNat <$> json.natBelow? 0x100000000

/-- The name of a function, which may be missing or null. -/
def name? : Option Json → Option (Option String)
  | none | some .null => some none
  | some json => some <$> json.text?

end Json

/-- A constant, written as an object that names its type. -/
def Literal.ofJson? : Json → Option Literal
  | .object [(some "Int", value)] => .int <$> value.int32?
  | .object [(some "Str", value)] => .str <$> value.text?
  | _ => none

/-! ## Reading nodes

The first argument is the number of arrays and objects that may still be entered. -/

mutual

def Expr.ofJson? : Nat → Json → Option Expr
  | n + 1, .object [(some "Block", parts)] => .block <$> Block.ofJson? n parts
  | n + 2, .object [(some kind, parts)] =>
    match kind with
    | "Literal" => do
      let [some value, line] ← parts.parts? ["value", "line"] | none
      if n = 0 then none else return .literal (← Literal.ofJson? value) (← Json.line? line)
    | "LocalVarAccess" => do
      let [some name, line] ← parts.parts? ["name", "line"] | none
      return .var (← name.text?) (← Json.line? line)
    | "LocalVarAssignment" => do
      let [some name, some value, some declares, line] ←
        parts.parts? ["name", "expr", "declaration", "line"] | none
      return .assign (← name.text?) (← Expr.ofJson? n value) (← declares.bool?) (← Json.line? line)
    | "Fun" => do
      let [name, some params, some body, line] ←
        parts.parts? ["name", "parameters", "body", "line"] | none
      if n = 0 then none
      else
        return .function (← Json.name? name) (← params.texts?) (← Block.ofJson? n body)
          (← Json.line? line)
    | "FunCall" => do
      let [some callee, some args, line] ← parts.parts? ["qualifier", "args", "line"] | none
      return .call (← Expr.ofJson? n callee) (← exprsOfJson? n args) (← Json.line? line)
    | "Return" => do
      let [some value, line] ← parts.parts? ["expr", "line"] | none
      return .ret (← Expr.ofJson? n value) (← Json.line? line)
    | "If" => do
      let [some test, some onTrue, some onFalse, line] ←
        parts.parts? ["condition", "true_block", "false_block", "line"] | none
      return .cond (← Expr.ofJson? n test) (← Block.ofJson? n onTrue) (← Block.ofJson? n onFalse)
        (← Json.line? line)
    | "New" => do
      let [some fields, line] ← parts.parts? ["init", "line"] | none
      return .object (← fieldsOfJson? n fields) (← Json.line? line)
    | "FieldAccess" => do
      let [some receiver, some name, line] ← parts.parts? ["receiver", "name", "line"] | none
      return .field (← Expr.ofJson? n receiver) (← name.text?) (← Json.line? line)
    | "FieldAssignment" => do
      let [some receiver, some name, some value, line] ←
        parts.parts? ["receiver", "name", "expr", "line"] | none
      return .setField (← Expr.ofJson? n receiver) (← name.text?) (← Expr.ofJson? n value)
        (← Json.line? line)
    | "MethodCall" => do
      let [some receiver, some name, some args, line] ←
        parts.parts? ["receiver", "name", "args", "line"] | none
      return .method (← Expr.ofJson? n receiver) (← name.text?) (← exprsOfJson? n args)
        (← Json.line? line)
    | _ => none
  | _, _ => none

def Block.ofJson? : Nat → Json → Option Block
  | n + 1, json => do
    let [some instrs, line] ← json.parts? ["instrs", "line"] | none
    return .mk (← exprsOfJson? n instrs) (← Json.line? line)
  | _, _ => none

def exprsOfJson? : Nat → Json → Option (List Expr)
  | n + 1, .array items => items.mapM (Expr.ofJson? n)
  | _, _ => none

/-- The initializers of an object literal, each an array of a key and an expression. -/
def fieldsOfJson? : Nat → Json → Option (List (String × Expr))
  | n + 1, .array items => items.mapM (fieldOfJson? n)
  | _, _ => none

def fieldOfJson? : Nat → Json → Option (String × Expr)
  | n + 1, .array [key, value] => do return (← key.text?, ← Expr.ofJson? n value)
  | _, _ => none

end

/-- How many arrays and objects may be open at once where a program is read. -/
def Script.maxNesting : Nat := 127

/-- The program that a JSON value describes. -/
def Script.ofJson? (json : Json) : Option Script := do
  let [some body] ← json.parts? ["body"] | none
  return ⟨← Block.ofJson? (Script.maxNesting - 1) body⟩

/-- The program that a JSON text describes. -/
def Script.read? (text : String) : Option Script := do
  Script.ofJson? (← Json.read? text)

/-! ## Writing nodes -/

/-- The tag of a node: its kind of construct. -/
def Expr.kind : Expr → String
  | .block _ => "Block"
  | .literal .. => "Literal"
  | .var .. => "LocalVarAccess"
  | .assign .. => "LocalVarAssignment"
  | .function .. => "Fun"
  | .call .. => "FunCall"
  | .ret .. => "Return"
  | .cond .. => "If"
  | .object .. => "New"
  | .field .. => "FieldAccess"
  | .setField .. => "FieldAssignment"
  | .method .. => "MethodCall"

def Literal.toJson : Literal → Json
  | .int n => .record [("Int", .integer n.toInt)]
  | .str s => .record [("Str", .text s)]

/-- The last part of every node. -/
def lineField (line : UInt32) : String × Json :=
  ("line", .natural line.toNat)

mutual

def Expr.toJson : Expr → Json
  | .block body => .record [("Block", body.toJson)]
  | .literal value line => .record [("Literal", .record [("value", value.toJson), lineField line])]
  | .var name line => .record [("LocalVarAccess", .record [("name", .text name), lineField line])]
  | .assign name value declares line =>
    .record [("LocalVarAssignment", .record [("name", .text name), ("expr", value.toJson),
      ("declaration", .bool declares), lineField line])]
  | .function name params body line =>
    .record [("Fun", .record [("name", (name.map Json.text).getD .null),
      ("parameters", .texts params), ("body", body.toJson), lineField line])]
  | .call callee args line =>
    .record [("FunCall", .record [("qualifier", callee.toJson), ("args", .array (exprsToJson args)),
      lineField line])]
  | .ret value line => .record [("Return", .record [("expr", value.toJson), lineField line])]
  | .cond test onTrue onFalse line =>
    .record [("If", .record [("condition", test.toJson), ("true_block", onTrue.toJson),
      ("false_block", onFalse.toJson), lineField line])]
  | .object fields line =>
    .record [("New", .record [("init", .array (fieldsToJson fields)), lineField line])]
  | .field receiver name line =>
    .record [("FieldAccess", .record [("receiver", receiver.toJson), ("name", .text name),
      lineField line])]
  | .setField receiver name value line =>
    .record [("FieldAssignment", .record [("receiver", receiver.toJson), ("name", .text name),
      ("expr", value.toJson), lineField line])]
  | .method receiver name args line =>
    .record [("MethodCall", .record [("receiver", receiver.toJson), ("name", .text name),
      ("args", .array (exprsToJson args)), lineField line])]

def Block.toJson : Block → Json
  | .mk instrs line => .record [("instrs", .array (exprsToJson instrs)), lineField line]

def exprsToJson : List Expr → List Json
  | [] => []
  | e :: rest => e.toJson :: exprsToJson rest

def fieldsToJson : List (String × Expr) → List Json
  | [] => []
  | (key, value) :: rest => .array [.text key, value.toJson] :: fieldsToJson rest

end

/-- The JSON value of a program. -/
def Script.toJson (script : Script) : Json :=
  .record [("body", script.body.toJson)]

/-- The compact text of a program: every line written, a missing name as null. -/
def Script.written (script : Script) : String :=
  script.toJson.written

end TandemScript
