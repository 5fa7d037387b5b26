import TandemScript.Value
import TandemScript.Word

/-!
# Instructions

The instructions of the stack machine, and how they stand in code: a word for the operation, and
for most operations a second one for the operand. Code is read at any position, also where no
compiler has put an instruction, so what is found there may not be one.
-/

namespace TandemScript

/-- What an instruction does. -/
inductive Opcode where
  | const | lookup | register | load | store
  | dup | pop | swap
  | call | ret
  | goto | jumpIfFalse
  | new | get | put
  deriving DecidableEq, Repr

namespace Opcode

/-- The word of an operation. -/
def word : Opcode → UInt32
  | const => 0
  | lookup => 1
  | register => 2
  | load => 3
  | store => 4
  | dup => 5
  | pop => 6
  | swap => 7
  | call => 8
  | ret => 9
  | goto => 10
  | jumpIfFalse => 11
  | new => 12
  | get => 13
  | put => 14

/-- The operation of a word. -/
def ofWord? (word : UInt32) : Option Opcode :=
  match word.toNat with
  | 0 => some const
  | 1 => some lookup
  | 2 => some register
  | 3 => some load
  | 4 => some store
  | 5 => some dup
  | 6 => some pop
  | 7 => some swap
  | 8 => some call
  | 9 => some ret
  | 10 => some goto
  | 11 => some jumpIfFalse
  | 12 => some new
  | 13 => some get
  | 14 => some put
  | _ => none

theorem ofWord?_word (op : Opcode) : ofWord? op.word = some op := by
  cases op <;> rfl

/-- The name of an operation in listings and messages. -/
def mnemonic : Opcode → String
  | const => "CONST"
  | lookup => "LOOKUP"
  | register => "REGISTER"
  | load => "LOAD"
  | store => "STORE"
  | dup => "DUP"
  | pop => "POP"
  | swap => "SWAP"
  | call => "FUNCALL"
  | ret => "RET"
  | goto => "GOTO"
  | jumpIfFalse => "JUMP_IF_FALSE"
  | new => "NEW"
  | get => "GET"
  | put => "PUT"

/-- Whether a second word follows. -/
def takesOperand : Opcode → Bool
  | dup | pop | swap | ret => false
  | _ => true

end Opcode

/-- One step of the machine. Dictionary words stand for constants, names and shapes. -/
inductive Instruction where
  /-- Push a word. -/
  | const (word : Word)
  /-- Push the value of a global name. -/
  | lookup (name : Word)
  /-- Pop a value and bind a global name to it. -/
  | register (name : Word)
  | load (slot : UInt32)
  | store (slot : UInt32)
  | dup
  | pop
  | swap
  /-- Call a function that lies below its receiver and arguments. -/
  | call (argc : UInt32)
  | ret
  | goto (target : UInt32)
  | jumpIfFalse (target : UInt32)
  /-- Pop the fields of an object and push the object. -/
  | new (shape : Word)
  | get (name : Word)
  | put (name : Word)
  deriving DecidableEq, Repr

namespace Instruction

def opcode : Instruction → Opcode
  | const _ => .const
  | lookup _ => .lookup
  | register _ => .register
  | load _ => .load
  | store _ => .store
  | dup => .dup
  | pop => .pop
  | swap => .swap
  | call _ => .call
  | ret => .ret
  | goto _ => .goto
  | jumpIfFalse _ => .jumpIfFalse
  | new _ => .new
  | get _ => .get
  | put _ => .put

def operand? : Instruction → Option UInt32
  | const word | lookup word | register word | new word | get word | put word => some word.bits
  | load n | store n | call n | goto n | jumpIfFalse n => some n
  | dup | pop | swap | ret => none

/-- The words of an instruction in code. -/
def words (i : Instruction) : List UInt32 :=
  i.opcode.word :: i.operand?.toList

/-- How many words an instruction takes. -/
def size (i : Instruction) : Nat :=
  if i.opcode.takesOperand then 2 else 1

theorem length_words (i : Instruction) : i.words.length = i.size := by
  cases i <;> rfl

end Instruction

/-- The instruction with an operand, for the operations that take one. -/
def Opcode.instruction (op : Opcode) (operand : UInt32) : Instruction :=
  match op with
  | const => .const ⟨operand⟩
  | lookup => .lookup ⟨operand⟩
  | register => .register ⟨operand⟩
  | load => .load operand
  | store => .store operand
  | dup => .dup
  | pop => .pop
  | swap => .swap
  | call => .call operand
  | ret => .ret
  | goto => .goto operand
  | jumpIfFalse => .jumpIfFalse operand
  | new => .new ⟨operand⟩
  | get => .get ⟨operand⟩
  | put => .put ⟨operand⟩

theorem instruction_operand? (i : Instruction) :
    i.opcode.instruction (i.operand?.getD 0) = i := by
  cases i <;> rfl

/-! ## Reading code -/

/-- What stands at a position of code. -/
inductive Fetched where
  | instruction (i : Instruction)
  /-- An operation at the end of the code that lacks its operand. -/
  | truncated (op : Opcode)
  /-- A word that no operation has. -/
  | unknown (word : UInt32)
  deriving DecidableEq, Repr

namespace Fetched

/-- How many words belong together. -/
def size : Fetched → Nat
  | instruction i => i.size
  | truncated _ | unknown _ => 1

def mnemonic? : Fetched → Option String
  | instruction i => some i.opcode.mnemonic
  | truncated op => some op.mnemonic
  | unknown _ => none

end Fetched

namespace Code

/-- What stands at a position, unless the code ends before it. -/
def fetch? (code : Code) (pc : Nat) : Option Fetched :=
  match code.words[pc]? with
  | none => none
  | some word =>
    match Opcode.ofWord? word with
    | none => some (.unknown word)
    | some op =>
      if op.takesOperand then
        match code.words[pc + 1]? with
        | none => some (.truncated op)
        | some operand => some (.instruction (op.instruction operand))
      else
        some (.instruction (op.instruction 0))

/-- At most `count` things that stand one after the other from an offset on. -/
def sweepFrom (code : Code) (offset : Nat) : (count : Nat) → List (Nat × Fetched)
  | 0 => []
  | count + 1 =>
    match code.fetch? offset with
    | none => []
    | some fetched => (offset, fetched) :: code.sweepFrom (offset + fetched.size) count

/-- Everything that stands in the code, with its offset. -/
def sweep (code : Code) : List (Nat × Fetched) :=
  code.sweepFrom 0 code.words.size

end Code

end TandemScript
