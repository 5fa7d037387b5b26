import TandemScript.Shape
import TandemScript.Syntax.Tree

/-!
# Values

What a program computes with, and what a host sees. Functions and shapes carry the number under
which they were created: two of them are the same value exactly when these numbers agree. Records
live in a store, and a value only names one.
-/

namespace TandemScript

/-- The functions that every program starts with. -/
inductive Builtin where
  | add | sub | mul | div | rem
  | eq | ne | lt | le | gt | ge
  | print
  deriving DecidableEq, Repr

/-- A function of the host: one of the built-in ones, or one that it has installed itself. -/
inductive Native where
  | builtin (op : Builtin)
  | host (handler : Nat)
  deriving DecidableEq, Repr

/-- The compiled body of a function. Every word of it has a source line. -/
structure Code where
  words : Array UInt32
  lines : Array UInt32
  /-- Parameters, with the receiver. -/
  arity : Nat
  /-- Parameters, with the receiver, and local variables. -/
  slots : Nat
  deriving DecidableEq, Repr, Inhabited

/-- The line of a word; positions outside the code have none. -/
def Code.sourceLine (code : Code) (pc : Nat) : UInt32 :=
  code.lines.getD pc 0

/-- The number of one function activation of the tree evaluator. -/
abbrev FrameId := Nat

/-- The activations whose variables a piece of code sees, innermost first. -/
abbrev Env := List FrameId

/-- What a function does when it is called. -/
inductive Body where
  | native (op : Native)
  | bytecode (code : Code)
  /-- A literal evaluated by the tree evaluator, with the activations it was written in. -/
  | closure (params : List String) (body : Block) (env : Env)

/-- A function with the number it was created under. -/
structure Function where
  id : Nat
  name : String
  body : Body

/-- The name of a function whose literal gives none. -/
def Function.anonymous : String := "lambda"

/-- The bytecode of a compiled function. -/
def Function.code? (f : Function) : Option Code :=
  match f.body with
  | .bytecode code => some code
  | _ => none

/-- The number under which a record was created. -/
abbrev RecordId := Nat

/-- A value. -/
inductive Value where
  | undefined
  | int (n : Int32)
  | str (s : String)
  | function (f : Function)
  | shape (id : Nat) (shape : Shape)
  | record (id : RecordId)
  /-- The global environment as an object. -/
  | global

instance : Inhabited Value := ⟨.undefined⟩

namespace Value

def typeText : Value → String
  | undefined => "undefined"
  | int _ => "integer"
  | str _ => "string"
  | function _ => "function"
  | shape .. => "shape"
  | record _ | global => "object"

/-- The integer that stands for a truth value. -/
def ofBool (b : Bool) : Value :=
  .int (if b then 1 else 0)

/-- The rule of conditionals: only the integer zero is false. -/
def isFalse : Value → Bool
  | int n => n = 0
  | _ => false

end Value

/-! ## Records -/

/-- The heap object that a record was copied from: the number of the heap, and its first cell. -/
structure Origin where
  heap : Nat
  index : Nat
  deriving DecidableEq, Repr

/-- An object: a value for every name of its shape. Only the values ever change. -/
structure Record where
  shape : Shape
  fields : Array Value
  origin : Option Origin
  deriving Inhabited

namespace Record

/-- An object of the given shape that stands for an object of a heap, its fields still unset. -/
def unfilled (shape : Shape) (origin : Origin) : Record :=
  ⟨shape, Array.replicate shape.size .undefined, some origin⟩

/-- The value of a field, if the shape has it. -/
def get? (record : Record) (name : String) : Option Value := do
  record.fields[← record.shape.slot? name]?

/-- The record with another value in one slot; there is no change outside its slots. -/
def setSlot (record : Record) (slot : Nat) (value : Value) : Record :=
  { record with fields := record.fields.setIfInBounds slot value }

/-- The record with another value in a field, if the shape has it. -/
def set? (record : Record) (name : String) (value : Value) : Option Record :=
  (record.shape.slot? name).map fun slot ↦ record.setSlot slot value

/-- Names and values in slot order. -/
def entries (record : Record) : List (String × Value) :=
  record.shape.names.zip record.fields.toList

end Record

/-- All records that were ever created, at the numbers they were created under. -/
structure Records where
  cells : Array Record := #[]
  deriving Inhabited

namespace Records

def get? (records : Records) (id : RecordId) : Option Record :=
  records.cells[id]?

/-- A new record. -/
def add (records : Records) (record : Record) : RecordId × Records :=
  (records.cells.size, ⟨records.cells.push record⟩)

/-- The origin of a record. -/
def origin? (records : Records) (id : RecordId) : Option Origin := do
  (← records.get? id).origin

/-- The value of a field, if the record has it. -/
def field? (records : Records) (id : RecordId) (name : String) : Option Value := do
  (← records.get? id).get? name

/-- The store with another value in a slot of a record. -/
def setSlot (records : Records) (id : RecordId) (slot : Nat) (value : Value) : Records :=
  ⟨records.cells.modify id fun record ↦ record.setSlot slot value⟩

/-- The store with another value in a field of a record, if the record has it. -/
def writeField? (records : Records) (id : RecordId) (name : String) (value : Value) :
    Option Records := do
  let slot ← (← records.get? id).shape.slot? name
  return records.setSlot id slot value

/-- Whether two names mean one object: the same record, or two copies of one heap object. -/
def sameObject (records : Records) (a b : RecordId) : Bool :=
  a = b || match records.origin? a, records.origin? b with
    | some originA, some originB => originA = originB
    | _, _ => false

end Records

/-- The equality of the language: numbers and strings by content, all else by identity. -/
def Value.same (records : Records) : Value → Value → Bool
  | .undefined, .undefined => true
  | .int a, .int b => a = b
  | .str a, .str b => a = b
  | .function a, .function b => a.id = b.id
  | .shape a _, .shape b _ => a = b
  | .record a, .record b => records.sameObject a b
  | .global, .global => true
  | _, _ => false

end TandemScript
