import TandemScript.Proofs.Evolution

/-!
# Machines in lockstep

Two machines that go through the same states differ only in how they call what lies outside of them.
Where their ways of calling are in lockstep, as long as the state of the run has a property that it
keeps as it moves on, all of the machines' runs are. A machine that is cut off may be followed by
one that takes more steps.
-/

namespace TandemScript

variable {waived : Stop → Prop} {Q : RunState → Prop} {call call' : Caller}

/-- The same machine, in a run whose state has a property. -/
abbrev Machine.Along (Q : RunState → Prop) : Machine → Machine → Prop :=
  TandemScript.Along fun m ↦ Q m.run

section Machines

variable (hnote : ∀ stop note, waived stop → waived (stop.mapFailure note))
  (hQ : ∀ st st', Q st → st.Later st' → Q st')
  (hcall : Caller.Lockstep waived (Along Q) call call')

include hQ in
theorem Moves.machineLockstep {α : Type} {x : Exec α} (h : Moves Machine.Later x) :
    Lockstep waived (Machine.Along Q) x x :=
  h.lockstep fun m m' hm hlater ↦ hQ m.run m'.run hm hlater.run

theorem Exec.onRun_lockstep {α : Type} {x y : Run α} (h : Lockstep waived (Along Q) x y) :
    Lockstep waived (Machine.Along Q) (onRun x) (onRun y) := by
  rintro m _ ⟨rfl, hm⟩
  rw [onRun_apply, onRun_apply]
  rcases (h m.run m.run ⟨rfl, hm⟩).cases with
    ⟨a, st, _, hx, hy, rfl, hst⟩ | ⟨stop, st, _, hx, hy, rfl, hst⟩ | ⟨stop, st, hx, hwaived⟩
  · rw [hx, hy]
    exact .of_ok ⟨rfl, hst⟩
  · rw [hx, hy]
    exact .of_error ⟨rfl, hst⟩
  · rw [hx]
    exact .of_waived hwaived

include hQ hcall

namespace Exec

theorem callOutside_lockstep (callee : Function) (base argc : Nat) :
    Lockstep waived (Machine.Along Q) (callOutside call callee base argc)
      (callOutside call' callee base argc) := by
  refine .bind ((query_moves _).later.machineLockstep hQ) fun _ ↦ ?_
  refine .bind ((decode_moves _).later.machineLockstep hQ) fun receiver ↦ ?_
  refine .bind ((decodeCells_moves _ _).later.machineLockstep hQ) fun args ↦ ?_
  refine .bind ((report_moves _ _).later.machineLockstep hQ) fun _ ↦ ?_
  refine .bind (onRun_lockstep (hcall callee receiver args)) fun value ↦ ?_
  refine .bind ((encode_moves _).later.machineLockstep hQ) fun _ ↦ ?_
  refine .bind ((shrink_moves _).later.machineLockstep hQ) fun _ ↦ ?_
  exact (push_moves _).later.machineLockstep hQ

theorem callFunction_lockstep (argc : Nat) :
    Lockstep waived (Machine.Along Q) (callFunction call argc) (callFunction call' argc) := by
  refine .bind ((query_moves _).later.machineLockstep hQ) fun base ↦ ?_
  refine .bind ((query_moves _).later.machineLockstep hQ) fun _ ↦ ?_
  refine .bind ((decode_moves _).later.machineLockstep hQ) fun value ↦ ?_
  cases value with
  | function callee =>
    simp only
    split
    · exact (callInside_moves _ _ _ _).later.machineLockstep hQ
    · exact callOutside_lockstep hQ hcall callee base argc
  | _ => exact Moves.machineLockstep hQ (.of_same fun _ ↦ rfl)

theorem performFetched_lockstep (fetched : Fetched) :
    Lockstep waived (Machine.Along Q) (performFetched call fetched)
      (performFetched call' fetched) := by
  -- An instruction that is no call is the same with a caller that calls nothing.
  let silent : Caller := fun _ _ _ st ↦ .error .unfinished st
  have hsilent : silent.Moves := fun _ _ _ ↦ .of_same fun _ ↦ rfl
  cases fetched with
  | instruction i =>
    by_cases hi : ∃ argc, i = .call argc
    · obtain ⟨argc, rfl⟩ := hi
      exact .bind (callFunction_lockstep hQ hcall argc.toNat) fun _ ↦ .pure _
    · have hsame : ∀ call, perform call i = perform silent i := by
        intro call
        cases i with
        | call argc => exact absurd ⟨argc, rfl⟩ hi
        | _ => rfl
      change Lockstep waived (Machine.Along Q) (perform call i) (perform call' i)
      rw [hsame call, hsame call']
      exact (perform_moves hsilent i).machineLockstep hQ
  | _ => exact (fail_moves _).later.machineLockstep hQ

include hnote

theorem step_lockstep : Lockstep waived (Machine.Along Q) (step call) (step call') := by
  rintro m _ ⟨rfl, hm⟩
  unfold step
  simp only
  split
  · exact .of_error ⟨rfl, hm⟩
  · next fetched hfetch =>
    have hfollows := performFetched_lockstep hQ hcall fetched
      { m with pc := m.pc + fetched.size } _ ⟨rfl, hm⟩
    rcases hfollows.cases with
      ⟨result, m', _, hx, hy, rfl, hm'⟩ | ⟨stop, m', _, hx, hy, rfl, hm'⟩ |
      ⟨stop, m', hx, hwaived⟩
    · rw [hx, hy]
      exact .of_ok ⟨rfl, hm'⟩
    · rw [hx, hy]
      exact .of_error ⟨rfl, hm'⟩
    · rw [hx]
      exact .of_waived (hnote _ _ hwaived)

/-- A run is followed by one of as many steps, and by one of more where it may be cut off. -/
theorem run_lockstep {steps more : Nat} (hle : steps ≤ more)
    (hcut : steps < more → waived .unfinished) :
    Lockstep waived (Machine.Along Q) (run call steps) (run call' more) := by
  induction steps generalizing more with
  | zero =>
    rintro m _ ⟨rfl, hm⟩
    cases more with
    | zero => exact .of_error ⟨rfl, hm⟩
    | succ more => exact .of_waived (hcut (Nat.succ_pos more))
  | succ steps ih =>
    obtain ⟨more, rfl⟩ := Nat.exists_eq_add_of_le' hle
    refine .bind (step_lockstep hnote hQ hcall) fun result ↦ ?_
    cases result with
    | some word => exact .pure _
    | none => exact ih (Nat.le_add_left _ _) fun h ↦ hcut (Nat.succ_lt_succ h)

theorem session_lockstep {steps more : Nat} (hle : steps ≤ more)
    (hcut : steps < more → waived .unfinished) (receiver : Value) (args : List Value) :
    Lockstep waived (Machine.Along Q) (session call steps receiver args)
      (session call' more receiver args) := by
  refine .bind ((enter_moves _ _).later.machineLockstep hQ) fun _ ↦ ?_
  refine .bind (run_lockstep hnote hQ hcall hle hcut) fun _ ↦ ?_
  exact (decode_moves _).later.machineLockstep hQ

end Exec

include hnote

theorem Function.execute_lockstep {steps more : Nat} (hle : steps ≤ more)
    (hcut : steps < more → waived .unfinished) (f : Function) (receiver : Value)
    (args : List Value) :
    Lockstep waived (Along Q) (f.execute call steps receiver args)
      (f.execute call' more receiver args) := by
  have hfail : ∀ failure, Lockstep waived (Along Q) (Run.fail failure : Run Value)
      (Run.fail failure) :=
    fun _ _ _ hst ↦ .of_error hst
  unfold execute
  split
  · exact hfail _
  · split
    · exact hfail _
    · next code _ _ =>
      rintro st _ ⟨rfl, hst⟩
      have hnew : Q (Machine.new st f code).run := hQ _ _ hst ⟨rfl, rfl, .refl _⟩
      have hfollows := Exec.session_lockstep hnote hQ hcall hle hcut receiver args (.new st f code)
        _ ⟨rfl, hnew⟩
      unfold runMachine
      rcases hfollows.cases with
        ⟨value, m, _, hx, hy, rfl, hm⟩ | ⟨stop, m, _, hx, hy, rfl, hm⟩ | ⟨stop, m, hx, hwaived⟩
      · rw [hx, hy]
        exact .of_ok ⟨rfl, hm⟩
      · rw [hx, hy]
        exact .of_error ⟨rfl, hm⟩
      · rw [hx]
        exact .of_waived hwaived

end Machines

end TandemScript
