import TandemScript.Proofs.MachineLockstep

/-!
# Budgets of steps

A run that its budget of steps does not cut off is the same with every greater budget, on each of
the engines: calls may nest deeper and machines may go further, but the run asks for neither. So a
run that ends at all has one outcome, whatever the budget.
-/

namespace TandemScript

theorem Stop.mapFailure_unfinished (stop : Stop) (note : Failure → Failure)
    (h : stop = .unfinished) : stop.mapFailure note = .unfinished := by
  rw [h]
  rfl

/-! ## Machines -/

section Machines

variable {call call' : Caller} (hcall : Caller.Lockstep (· = .unfinished) Eq call call')
include hcall

theorem Exec.step_follows : Lockstep (· = .unfinished) Eq (Exec.step call) (Exec.step call') := by
  rw [← along_true (σ := RunState)] at hcall
  rw [← along_true (σ := Machine)]
  exact Exec.step_lockstep Stop.mapFailure_unfinished (fun _ _ h _ ↦ h) hcall

/-- A run that is not cut off is the same with more steps, and with a caller that gives up later. -/
theorem Exec.session_follows {steps more : Nat} (hle : steps ≤ more) (receiver : Value)
    (args : List Value) :
    Lockstep (· = .unfinished) Eq (Exec.session call steps receiver args)
      (Exec.session call' more receiver args) := by
  rw [← along_true (σ := RunState)] at hcall
  rw [← along_true (σ := Machine)]
  exact Exec.session_lockstep Stop.mapFailure_unfinished (fun _ _ h _ ↦ h) hcall hle (fun _ ↦ rfl)
    receiver args

theorem Function.execute_follows {steps more : Nat} (hle : steps ≤ more) (f : Function)
    (receiver : Value) (args : List Value) :
    Lockstep (· = .unfinished) Eq (f.execute call steps receiver args)
      (f.execute call' more receiver args) := by
  rw [← along_true (σ := RunState)] at hcall ⊢
  exact f.execute_lockstep Stop.mapFailure_unfinished (fun _ _ h _ ↦ h) hcall hle (fun _ ↦ rfl)
    receiver args

end Machines

/-! ## Trees -/

theorem treeLaws_budget : TreeLaws (· = .unfinished) Eq := by
  rw [← along_true (σ := RunState)]
  exact treeLaws_along Stop.mapFailure_unfinished fun _ _ h _ ↦ h

theorem callLaws_budget : CallLaws (· = .unfinished) Eq where
  beginCall := .refl _
  leaveCall _ _ h := by rw [h]

/-! ## Engines -/

theorem Function.callWithin_lockstep {steps more : Nat} (hle : steps ≤ more) :
    Caller.Lockstep (· = .unfinished) Eq (Function.callWithin steps)
      (Function.callWithin more) := by
  induction steps generalizing more with
  | zero => exact fun _ _ _ _ _ _ ↦ .of_waived rfl
  | succ steps ih =>
    obtain ⟨more, rfl⟩ := Nat.exists_eq_add_of_le' hle
    have hle' : steps ≤ more + steps := Nat.le_add_left _ _
    intro f receiver args
    unfold Function.callWithin
    split
    · exact .refl _
    · exact callLaws_budget.insideCall (treeLaws_budget.evaluateFunction (ih hle') f _ _ _ _ _)
    · exact callLaws_budget.insideCall (f.execute_follows (ih hle') hle' receiver args)

/-- A run that is not cut off is the same with every greater number of steps. -/
theorem Script.runOn_lockstep (engine : Engine) {steps more : Nat} (hle : steps ≤ more)
    (script : Script) :
    Lockstep (· = .unfinished) Eq (script.runOn engine steps) (script.runOn engine more) := by
  have hcalls := Function.callWithin_lockstep hle
  cases engine with
  | machine => exact .bind (.refl _) fun main ↦ hcalls main .undefined []
  | tree => exact treeLaws_budget.evaluateScript callLaws_budget hcalls script

theorem Script.runOn_eq_of_le (engine : Engine) {steps more : Nat} (hle : steps ≤ more)
    (script : Script) {st : RunState}
    (hends : ∀ st', script.runOn engine steps st ≠ .error .unfinished st') :
    script.runOn engine more st = script.runOn engine steps st := by
  have hfollows := Script.runOn_lockstep engine hle script st _ rfl
  cases hrun : script.runOn engine steps st with
  | ok value st' =>
    rw [hrun] at hfollows
    obtain ⟨_, hsame, rfl⟩ := hfollows
    exact hsame
  | error stop st' =>
    rw [hrun] at hfollows
    rcases hfollows with rfl | ⟨_, hsame, rfl⟩
    · exact absurd hrun (hends st')
    · exact hsame

end TandemScript
