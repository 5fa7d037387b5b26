import TandemScript.Machine.Step

/-!
# Runs of a machine

A machine is made for one call from outside. It starts with a window for the function, takes steps
until that function returns, and is dropped.
-/

namespace TandemScript

namespace Exec

/-- Lay out the outermost window. No caller is to be gone back to from there. -/
def enter (receiver : Value) (args : List Value) : Exec Unit := do
  let callee ← onRun (Run.onDict (Dictionary.intern (.function (← read Machine.function))))
  push callee
  let bp ← read fun m ↦ m.stack.size
  modify fun m ↦ { m with bp }
  pushValues (receiver :: args)
  completeWindow bp (← read fun m ↦ m.code.slots) Word.zero Word.zero callee
where
  pushValues : List Value → Exec Unit
    | [] => return
    | value :: rest => do
      push (← encode value)
      pushValues rest

/-- Take steps until there is a result, but no more than allowed. -/
def run (call : Caller) : (steps : Nat) → Exec Word
  | 0 => fun m ↦ .error .unfinished m
  | steps + 1 => do
    match ← step call with
    | some result => return result
    | none => run call steps

/-- The whole life of a machine that was just made. -/
def session (call : Caller) (steps : Nat) (receiver : Value) (args : List Value) : Exec Value := do
  enter receiver args
  decode (← run call steps)

end Exec

/-- A machine for one call of a function. Its stack and its heap are empty. -/
def Machine.new (st : RunState) (f : Function) (code : Code) : Machine :=
  let st := { st with heapCount := st.heapCount + 1 }
  { run := st
    heap := { id := st.heapCount, capacity := st.config.heapCells }
    function := f
    code }

/-- Run some code of a function in a machine of its own. -/
def Function.runMachine (call : Caller) (steps : Nat) (f : Function) (code : Code)
    (receiver : Value) (args : List Value) : Run Value := fun st ↦
  match Exec.session call steps receiver args (.new st f code) with
  | .ok value m => .ok value m.run
  | .error stop m => .error stop m.run

/-- Run a compiled function with a receiver and arguments. -/
def Function.execute (call : Caller) (steps : Nat) (f : Function) (receiver : Value)
    (args : List Value) : Run Value :=
  match f.code? with
  | none => Run.fail (.inconsistent (.noBytecode f.name))
  | some code =>
    if code.arity ≠ args.length + 1 then
      Run.fail ⟨.arityMismatch f.name (code.arity - 1) args.length, {}⟩
    else f.runMachine call steps code receiver args

end TandemScript
