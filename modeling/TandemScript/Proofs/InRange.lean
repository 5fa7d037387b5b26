import TandemScript.Proofs.Discipline
import TandemScript.Proofs.Passing

/-!
# Executions within range

Whatever the words of the code of a function, its execution makes no access that is not there, with
one exception: a return to a caller drops the window of the function and the cell of the callee
below it, and code that makes up the cells of a caller can have a window with no cell below.
-/

namespace TandemScript

/-! ## Returns -/

namespace Machine

end Machine

theorem Exec.IsPlain.returnFrom : IsPlain returnFrom := by
  refine bind pop fun result ↦ bind (query _) fun savedPc ↦ ?_
  split
  · exact pure _
  · refine bind (query _) fun savedBp ↦ bind (query _) fun caller ↦ ?_
    cases caller.code? with
    | none => exact fail _
    | some code =>
      refine bind (modify fun _ ↦ rfl) fun _ ↦ bind (push result) fun _ ↦ ?_
      exact bind (report _ _) fun _ ↦ pure _

namespace Checked

variable {m : Machine} {call : Caller}

end Checked

/-! ## Steps -/

namespace Checked

variable {m : Machine} {call : Caller}

end Checked

/-! ## Runs -/

namespace Machine

end Machine

namespace Checked

variable {m : Machine} {call : Caller}

end Checked

/-! ## Executions -/

/-- The execution of a function comes to a state between two steps. -/
def Function.Visits (f : Function) (call : Caller) (receiver : Value) (args : List Value)
    (st : RunState) (m : Machine) : Prop :=
  ∃ code m₀ count, f.code? = some code ∧ code.arity = args.length + 1 ∧
    Exec.enter receiver args (.new st f code) = .ok () m₀ ∧ m₀.after call count = some m

section Execute

variable {call : Caller} {f : Function} {receiver : Value} {args : List Value} {st : RunState}

end Execute

/-! ## A return from the bottom -/

end TandemScript
