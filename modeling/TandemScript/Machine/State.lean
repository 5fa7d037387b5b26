import TandemScript.Boundary
import TandemScript.Instruction
import TandemScript.Run
import TandemScript.Text.Columns

/-!
# Machines

The state of a stack machine. Each active function owns a window of the stack: its callee, its
receiver, its parameters and local variables, three cells that say how to go back to its caller,
and its operands.
-/

namespace TandemScript

/-- A machine, with the state of the run it is part of. -/
structure Machine where
  run : RunState
  stack : Array Word := #[]
  heap : Heap
  pc : Nat := 0
  /-- The cell of the receiver in the window of the running function. -/
  bp : Nat := 0
  function : Function
  code : Code

/-- A computation of a machine. -/
abbrev Exec := EStateM Stop Machine

/-- Cells of a window that say how to go back: where the caller's window is, where its code goes
on, and which function it is. -/
def linkCells : Nat := 3

namespace Machine

/-- How many cells the stack may have. -/
def stackLimit (m : Machine) : Nat :=
  m.run.config.stackCells

def stackExhausted (m : Machine) : Failure :=
  ⟨.exhausted .stack m.stackLimit, {}⟩

def heapExhausted (m : Machine) : Failure :=
  ⟨.exhausted .heap m.heap.capacity, {}⟩

/-- The first of the cells that say how to go back. -/
def linkStart (m : Machine) : Nat :=
  m.bp + m.code.slots

def cell (m : Machine) (index : Nat) : Except Failure Word :=
  match m.stack[index]? with
  | some word => .ok word
  | none => .error (.inconsistent (.cellOutOfRange index))

/-- The cell of a parameter or local variable. -/
def slotCell (m : Machine) (slot : UInt32) : Except Failure Nat :=
  if slot.toNat < m.code.slots then .ok (m.bp + slot.toNat)
  else .error (.inconsistent (.slotOutOfRange slot.toNat))

/-- The number in a cell that says how to go back. -/
def savedNumber (m : Machine) (index : Nat) : Except Failure Nat := do
  match (← m.cell index).asSmall? with
  | some n => return n
  | none => throw (.inconsistent .corruptActivation)

/-! ## Dumps -/

/-- A cell of the stack in a dump. -/
def cellDump (m : Machine) (index : Nat) (word : Word) : String :=
  let mark := if index = m.bp then "->" else "  "
  let shown := match word.view with
    | .reference _ => ""
    | _ =>
      match plainValue m.run.dict word with
      | .ok value => " " ++ value.dump m.run.records
      | .error _ => ""
  "\n" ++ mark ++ Text.alignRight 4 (toString index) ++ " " ++ word.text ++ shown

/-- The stack, one cell a line. -/
def stackDump (m : Machine) : String :=
  String.join (m.stack.toList.mapIdx m.cellDump)

/-- The objects from a cell on, at most `count` of them. -/
def objectDumps (m : Machine) (start : Nat) : (count : Nat) → List String
  | 0 => []
  | count + 1 =>
    if m.heap.used < start + headerCells then []
    else
      let place := "\n@" ++ Text.alignLeft 6 (toString start) ++ " "
      let header := m.heap.cells.getD start Word.undefined
      match m.run.dict.shape header with
      | .error _ => [place ++ "corrupt header " ++ header.text]
      | .ok shape =>
        let stop := min (start + headerCells + shape.size) m.heap.used
        let fields := (m.heap.cells.extract (start + headerCells) stop).toList.map Word.text
        (place ++ shape.text ++ " " ++ Text.bracketed fields) :: m.objectDumps stop count

/-- The heap, one object a line. -/
def heapDump (m : Machine) : String :=
  String.join (m.objectDumps 0 m.heap.used)

end Machine

namespace Exec

def fail {α : Type} (failure : Failure) : Exec α := fun m ↦
  .error (.failed failure) m

/-- A part of the state. -/
@[inline] def read {α : Type} (f : Machine → α) : Exec α := fun m ↦
  .ok (f m) m

/-- What a look-up in the state finds. -/
@[inline] def query {α : Type} (f : Machine → Except Failure α) : Exec α := fun m ↦
  match f m with
  | .ok a => .ok a m
  | .error failure => .error (.failed failure) m

/-- A computation on the state of the run. -/
@[inline] def onRun {α : Type} (x : Run α) : Exec α := fun m ↦
  let st := m.run
  let m := { m with run := default }
  match x st with
  | .ok a st => .ok a { m with run := st }
  | .error stop st => .error stop { m with run := st }

theorem onRun_apply {α : Type} (x : Run α) (m : Machine) :
    onRun x m = match x m.run with
      | .ok a st => .ok a { m with run := st }
      | .error stop st => .error stop { m with run := st } := rfl

/-- Report an event, which is worked out only where it is kept. -/
def report (level : Level) (event : Machine → Event) : Exec Unit := fun m ↦
  if m.run.log.admits level then (onRun (Run.report (event m))) m else .ok () m

/-- The complaint that a value is not of the type an operation needs. -/
def typeError {α : Type} (expected : String) (found : Value) : Exec α := fun m ↦
  .error (.failed (.notA expected m.run.records found)) m

/-! ## The stack -/

def push (word : Word) : Exec Unit := fun m ↦
  if m.stackLimit ≤ m.stack.size then .error (.failed m.stackExhausted) m
  else .ok () { m with stack := m.stack.push word }

def pop : Exec Word := fun m ↦
  match m.stack.back? with
  | some word => .ok word { m with stack := m.stack.pop }
  | none => .error (.failed (.inconsistent .stackUnderflow)) m

def top : Exec Word :=
  query fun m ↦
    match m.stack.back? with
    | some word => .ok word
    | none => .error (.inconsistent .stackUnderflow)

def cell (index : Nat) : Exec Word :=
  query fun m ↦ m.cell index

/-- Write a cell below the top. -/
def setCell (index : Nat) (word : Word) : Exec Unit := fun m ↦
  if index < m.stack.size then .ok () { m with stack := m.stack.setIfInBounds index word }
  else .error (.failed (.inconsistent (.cellOutOfRange index))) m

/-- Drop all cells but the first ones. -/
def truncate (count : Nat) : Exec Unit :=
  modify fun m ↦ { m with stack := m.stack.shrink count }

/-- The last cells of the stack, which stay there. -/
def lastCells (count : Nat) (missing : Inconsistency) : Exec (Array Word) :=
  query fun m ↦
    if m.stack.size < count then .error (.inconsistent missing)
    else .ok (m.stack.extract (m.stack.size - count) m.stack.size)

/-! ## Values and words -/

def decode (word : Word) : Exec Value := fun m ↦
  match word.view with
  | .reference _ =>
    let dict := m.run.dict
    let heap := m.heap
    (onRun (Run.onRecords (TandemScript.decode dict heap word))) m
  | _ =>
    match plainValue m.run.dict word with
    | .ok value => .ok value m
    | .error failure => .error (.failed failure) m

def encode (value : Value) : Exec Word := fun m ↦
  let records := m.run.records
  let heap := m.heap
  (onRun (Run.onDict (TandemScript.encode records heap value))) m

/-- The values of some cells. -/
def decodeCells (index : Nat) : (count : Nat) → Exec (List Value)
  | 0 => return []
  | count + 1 => do
    let value ← decode (← cell index)
    return value :: (← decodeCells (index + 1) count)

/-- The name that a word stands for. -/
def name (word : Word) : Exec String :=
  query fun m ↦ m.run.dict.string word

end Exec

end TandemScript
