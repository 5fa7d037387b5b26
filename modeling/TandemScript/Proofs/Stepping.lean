import TandemScript.Proofs.Placement
import TandemScript.Proofs.Room
import TandemScript.Proofs.TreeLockstep

/-!
# Where machines get to

A machine leads to a condition if finitely many steps bring it to a state with this condition, or
to a failure that is allowed. Steps are taken with a caller that only knows functions of the host;
where such a caller does not give up, every other one that calls these functions in the same way
does the same, so that what a machine leads to does not depend on the budget of its caller.
-/

namespace TandemScript

/-- Call functions of the host, and no other ones. -/
def Caller.native : Caller := fun f receiver args ↦
  match f.body with
  | .native op => op.call receiver args
  | _ => fun st ↦ .error .unfinished st

/-- The machine comes to a state with the condition `Q`, or fails as `E` allows. -/
inductive Leads (E : Failure → Machine → Prop) (Q : Machine → Prop) : Machine → Prop
  | arrived {m : Machine} : Q m → Leads E Q m
  | step {m m' : Machine} : Exec.step Caller.native m = .ok none m' → Leads E Q m' → Leads E Q m
  | failed {m m' : Machine} {failure : Failure} :
    Exec.step Caller.native m = .error (.failed failure) m' → E failure m' → Leads E Q m

/-- One step takes the machine to a state with the condition `Q`, or fails as `E` allows. -/
def Next (E : Failure → Machine → Prop) (Q : Machine → Prop) (m : Machine) : Prop :=
  Ensures (Exec.step Caller.native) m (fun result m' ↦ result = none ∧ Q m')
    fun stop m' ↦ ∃ failure, stop = .failed failure ∧ E failure m'

/-- The failure as a step notes it. -/
def Machine.noted (m : Machine) (i : Instruction) (line : UInt32) (failure : Failure) : Failure :=
  ((failure.noteOp i.opcode.mnemonic).noteFunction m.function.name).noteLine line

theorem Machine.cause_noted (m : Machine) (i : Instruction) (line : UInt32) (failure : Failure) :
    (m.noted i line failure).cause = failure.cause :=
  Failure.cause_noteLine _ line

namespace Exec

variable {call : Caller} {m m' : Machine} {i : Instruction}

theorem step_of_ok {result : Option Word} (hfetch : m.code.fetch? m.pc = some (.instruction i))
    (h : perform call i { m with pc := m.pc + i.size } = .ok result m') :
    step call m = .ok result m' := by
  have hperform : performFetched call (.instruction i)
      { m with pc := m.pc + (Fetched.instruction i).size } = .ok result m' := h
  unfold step
  simp only [hfetch, hperform]

theorem step_of_error {stop : Stop} (hfetch : m.code.fetch? m.pc = some (.instruction i))
    (h : perform call i { m with pc := m.pc + i.size } = .error stop m') :
    step call m = .error (stop.mapFailure fun failure ↦
      ((failure.noteOp i.opcode.mnemonic).noteFunction m'.function.name).noteLine
        (m'.code.sourceLine m.pc)) m' := by
  have hperform : performFetched call (.instruction i)
      { m with pc := m.pc + (Fetched.instruction i).size } = .error stop m' := h
  unfold step
  simp only [hfetch, hperform]
  rfl

end Exec

section Steps

variable {E : Failure → Machine → Prop} {Q R : Machine → Prop} {m : Machine}

/-- The instruction at hand is done, and what it leaves behind has the condition. -/
theorem Next.perform {i : Instruction} {line : UInt32} {rest : Fragment}
    (hcode : m.code.Contains m.pc ((i, line) :: rest))
    (h : Ensures (Exec.perform Caller.native i) { m with pc := m.pc + i.size }
      (fun result m' ↦ result = none ∧ Q m')
      fun stop m' ↦ ∃ failure, stop = .failed failure ∧ m'.function = m.function ∧
        m'.code = m.code ∧ E (m.noted i line failure) m') : Next E Q m := by
  unfold Ensures at h
  cases hperform : Exec.perform Caller.native i { m with pc := m.pc + i.size } with
  | ok result m' =>
    rw [hperform] at h
    exact .of_ok (Exec.step_of_ok hcode.fetch? hperform) h
  | error stop m' =>
    rw [hperform] at h
    obtain ⟨failure, rfl, hfunction, hcode', hE⟩ := h
    refine .of_error (Exec.step_of_error hcode.fetch? hperform) ⟨_, rfl, ?_⟩
    rw [hfunction, hcode', hcode.sourceLine]
    exact hE

namespace Leads

theorem next (h : Next E (Leads E Q) m) : Leads E Q m := by
  unfold Next Ensures at h
  cases hstep : Exec.step Caller.native m with
  | ok result m' =>
    rw [hstep] at h
    obtain ⟨rfl, hm'⟩ := h
    exact .step hstep hm'
  | error stop m' =>
    rw [hstep] at h
    obtain ⟨failure, rfl, hE⟩ := h
    exact .failed hstep hE

theorem trans (h : Leads E Q m) (hQ : ∀ m', Q m' → Leads E R m') : Leads E R m := by
  induction h with
  | arrived h => exact hQ _ h
  | step hstep _ ih => exact .step hstep ih
  | failed hstep hE => exact .failed hstep hE

theorem mono (h : Leads E Q m) (hQ : ∀ m', Q m' → R m') : Leads E R m :=
  h.trans fun m' hm' ↦ .arrived (hQ m' hm')

/-- Enough steps bring the run to an end. -/
theorem run_finishes {P : Word → Machine → Prop} (h : Leads E Q m)
    (hQ : ∀ m', Q m' → ∃ word m'', Exec.step Caller.native m' = .ok (some word) m'' ∧ P word m'') :
    ∃ enough, ∀ steps, enough ≤ steps → Ensures (Exec.run Caller.native steps) m P
      fun stop m' ↦ ∃ failure, stop = .failed failure ∧ E failure m' := by
  induction h with
  | arrived hm =>
    obtain ⟨word, m'', hstep, hP⟩ := hQ _ hm
    refine ⟨1, fun steps hsteps ↦ ?_⟩
    obtain ⟨steps, rfl⟩ := Nat.exists_eq_add_of_le' hsteps
    exact .of_ok (bind_of_ok hstep) hP
  | step hstep _ ih =>
    obtain ⟨enough, henough⟩ := ih
    refine ⟨enough + 1, fun steps hsteps ↦ ?_⟩
    obtain ⟨more, rfl⟩ := Nat.exists_eq_add_of_le hsteps
    have hrun := henough (enough + more) (Nat.le_add_right _ _)
    unfold Ensures at hrun ⊢
    rw [Nat.add_right_comm, Exec.run, bind_of_ok hstep]
    exact hrun
  | failed hstep hE =>
    refine ⟨1, fun steps hsteps ↦ ?_⟩
    obtain ⟨steps, rfl⟩ := Nat.exists_eq_add_of_le' hsteps
    exact .of_error (bind_of_error hstep) ⟨_, rfl, hE⟩

end Leads

end Steps

/-! ## Other callers -/

/-- Functions of the host are called as they are. -/
def Caller.CallsNative (call : Caller) : Prop :=
  ∀ f op receiver args, f.body = .native op → call f receiver args = op.call receiver args

theorem Function.callWithin_callsNative (steps : Nat) :
    (Function.callWithin (steps + 1)).CallsNative := by
  intro f op receiver args hbody
  unfold Function.callWithin
  simp only [hbody]

theorem Caller.native_callsNative : Caller.native.CallsNative := by
  intro f op receiver args hbody
  unfold Caller.native
  rw [hbody]

/-- What the caller for functions of the host does not give up, these callers do as well. -/
theorem Caller.native_lockstep {call : Caller} (hcall : call.CallsNative) :
    Caller.Lockstep (· = .unfinished) Eq Caller.native call := by
  intro f receiver args
  cases hbody : f.body with
  | native op =>
    rw [hcall f op receiver args hbody, Caller.native_callsNative f op receiver args hbody]
    exact .refl _
  | _ =>
    have hnative : Caller.native f receiver args = fun st ↦ .error .unfinished st := by
      unfold Caller.native
      rw [hbody]
    rw [hnative]
    exact fun _ _ _ ↦ .of_waived rfl

end TandemScript
