import TandemScript.Compile
import TandemScript.Evaluate
import TandemScript.Machine.Execute

/-!
# The two engines

A program runs either compiled, in a machine, or evaluated over its tree. Functions of both kinds
are values like any other, so each engine calls those of the other through `Function.callWithin`.
Runs are bounded by a number of steps: it bounds how deeply calls nest and how far each machine
goes, and a run that needs more ends unfinished.
-/

namespace TandemScript

/-- Call a function. Functions of the host do not count as nested calls. -/
def Function.callWithin : (steps : Nat) → Caller
  | 0 => fun _ _ _ st ↦ .error .unfinished st
  | steps + 1 => fun f receiver args ↦
    match f.body with
    | .native op => op.call receiver args
    | .closure params body env =>
      Run.insideCall (f.evaluate (Function.callWithin steps) params body env receiver args)
    | .bytecode _ =>
      Run.insideCall (f.execute (Function.callWithin steps) steps receiver args)

/-- How a program is run. -/
inductive Engine where
  /-- Compiled, in a machine. -/
  | machine
  /-- Over its tree. -/
  | tree
  deriving DecidableEq, Repr, Inhabited

/-- Compile a program and call it. -/
def Script.runCompiled (steps : Nat) (script : Script) : Run Value := do
  let main ← Run.onPool script.compile
  main.callWithin steps .undefined []

/-- Run a program on an engine. -/
def Script.runOn (engine : Engine) (steps : Nat) (script : Script) : Run Value :=
  match engine with
  | .machine => script.runCompiled steps
  | .tree => script.evaluate (Function.callWithin steps)

/-- A number of steps that no run takes to its end. -/
def amplySteps : Nat := 0x4000000000000000

end TandemScript
