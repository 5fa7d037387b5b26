import TandemScript.Word

/-!
# Failures

A failure ends a run; nothing in the language can catch it. It has a cause, and a context that
says where it happened: the operation, the function and the line. The context is filled in from
the inside out, so an outer place never replaces an inner one.
-/

namespace TandemScript

/-- What can run out. -/
inductive Resource where
  | stack
  | heap
  deriving DecidableEq, Repr

def Resource.text : Resource → String
  | .stack => "stack"
  | .heap => "heap"

/-- An assumption of an engine that a program tree or bytecode broke. -/
inductive Inconsistency where
  | instructionAsValue
  | stackUnderflow
  | cellOutOfRange (index : Nat)
  | slotOutOfRange (slot : Nat)
  | corruptActivation
  | missingOperand
  | pastEnd (pc : Nat)
  | unknownOpcode (word : UInt32)
  | windowUnderflow
  | missingInitializers
  | noBytecode (function : String)
  | danglingReference (index : Nat)
  | fieldOutside (offset index : Nat)
  | referenceOutOfRange
  | notAnEntry (word : Word)
  | entryOutOfRange (index : Nat)
  | wrongEntry (expected found : String)
  | dictionaryFull
  /-- A complaint of the host in its own words. -/
  | host (detail : String)
  deriving DecidableEq, Repr

def Inconsistency.text : Inconsistency → String
  | .instructionAsValue => "instruction used as a value"
  | .stackUnderflow => "operand stack underflow"
  | .cellOutOfRange index => s!"stack cell {index} out of range"
  | .slotOutOfRange slot => s!"slot {slot} out of range"
  | .corruptActivation => "corrupt activation record"
  | .missingOperand => "missing operand"
  | .pastEnd pc => s!"pc {pc} past end of code"
  | .unknownOpcode word => s!"unknown opcode {word}"
  | .windowUnderflow => "call window underflow"
  | .missingInitializers => "missing field initializers"
  | .noBytecode function => s!"{function} has no bytecode"
  | .danglingReference index => s!"dangling heap reference @{index}"
  | .fieldOutside offset index => s!"field {offset} outside object @{index}"
  | .referenceOutOfRange => "heap reference out of range"
  | .notAnEntry word => word.text ++ " is not a dictionary tag"
  | .entryOutOfRange index => s!"dictionary index {index} out of range"
  | .wrongEntry expected found => s!"expected {expected}, found {found}"
  | .dictionaryFull => "dictionary full"
  | .host detail => detail

/-- Why a run ended. -/
inductive Cause where
  | arityMismatch (function : String) (expected found : Nat)
  | undefinedVariable (name : String)
  /-- The value found is kept as the text it had at the time. -/
  | typeMismatch (expected found : String)
  | invalidField (field : String)
  | divisionByZero
  | exhausted (resource : Resource) (capacity : Nat)
  | inconsistent (detail : Inconsistency)
  deriving DecidableEq, Repr

namespace Cause

def text : Cause → String
  | arityMismatch function expected found =>
    s!"wrong number of arguments for {function}: expected {expected} but was {found}"
  | undefinedVariable name => s!"unknown local variable {name}"
  | typeMismatch expected found => s!"type error: {found} is not a {expected}"
  | invalidField field => s!"invalid field {field}"
  | divisionByZero => "division by zero"
  | exhausted resource capacity => s!"{resource.text} exhausted (capacity {capacity})"
  | inconsistent detail => "internal inconsistency: " ++ detail.text

/-- The code under which a cause is explained. -/
def code : Cause → String
  | arityMismatch .. => "SJS-E001"
  | undefinedVariable _ => "SJS-E002"
  | typeMismatch .. => "SJS-E003"
  | invalidField _ => "SJS-E004"
  | divisionByZero => "SJS-E005"
  | exhausted .. => "SJS-E006"
  | inconsistent _ => "SJS-E007"

end Cause

/-- Where a failure happened, as far as it is known. -/
structure Context where
  op : Option String := none
  function : Option String := none
  line : Option UInt32 := none
  deriving DecidableEq, Repr, Inhabited

namespace Context

def isEmpty (context : Context) : Bool :=
  context.op.isNone && context.function.isNone && context.line.isNone

/-- The context in parentheses after a message. -/
def text (context : Context) : String :=
  if context.isEmpty then ""
  else
    let parts := (context.op.map fun op ↦ s!"in {op}").toList ++
      (context.function.map fun function ↦ s!"function {function}").toList ++
      (context.line.map fun line ↦ s!"line {line}").toList
    " (" ++ ", ".intercalate parts ++ ")"

end Context

/-- A condition that ends a run. -/
structure Failure where
  cause : Cause
  context : Context := {}
  deriving DecidableEq, Repr

namespace Failure

def inconsistent (detail : Inconsistency) : Failure :=
  ⟨.inconsistent detail, {}⟩

/-- Note the operation, unless one is known. -/
def noteOp (failure : Failure) (op : String) : Failure :=
  { failure with context.op := failure.context.op <|> some op }

/-- Note the function, unless one is known. -/
def noteFunction (failure : Failure) (function : String) : Failure :=
  { failure with context.function := failure.context.function <|> some function }

/-- Note the line, unless one is known. Line zero says nothing. -/
def noteLine (failure : Failure) (line : UInt32) : Failure :=
  if line = 0 then failure
  else { failure with context.line := failure.context.line <|> some line }

/-- The message with its context. -/
def text (failure : Failure) : String :=
  failure.cause.text ++ failure.context.text

end Failure

end TandemScript
