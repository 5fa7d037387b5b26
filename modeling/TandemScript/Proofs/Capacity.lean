import TandemScript.Proofs.InRange

/-!
# Capacities

Whatever the words of the code of a function, its execution keeps to the limits of its run: the
stack has no more cells than it may have, and the heap uses no more than its capacity. The capacity
never shrinks and never exceeds the bound of references; where the policy is to abort it stays as it
was, and a step that runs out of heap leaves all objects as they were.
-/

namespace TandemScript

/-- The run was stopped because a heap ran out. -/
def Stop.RanOutOfHeap : Stop → Prop
  | .failed failure => ∃ capacity, failure.cause = .exhausted .heap capacity
  | .unfinished => False

theorem Stop.ranOutOfHeap_mapFailure {note : Failure → Failure}
    (hnote : ∀ failure, (note failure).cause = failure.cause) (stop : Stop) :
    (stop.mapFailure note).RanOutOfHeap ↔ stop.RanOutOfHeap := by
  cases stop with
  | failed failure =>
    change (∃ capacity, (note failure).cause = _) ↔ _
    rw [hnote]
    exact Iff.rfl
  | unfinished => exact Iff.rfl

/-! ## Running out of heap -/

/-- Where a heap runs out that may not grow, the objects of the machine are as before. -/
def SparesHeap {α : Type} (x : Exec α) : Prop :=
  ∀ m, m.run.config.policy = .abort →
    Ensures x m (fun _ _ ↦ True) fun stop m' ↦ stop.RanOutOfHeap → m'.heap = m.heap

namespace SparesHeap

variable {α β : Type} {x : Exec α} {f : α → Exec β}

theorem of_steady (h : Moves Machine.Steady x) : SparesHeap x := by
  intro m _
  cases hx : x m with
  | ok a m' => exact .of_ok hx trivial
  | error stop m' => exact .of_error hx fun _ ↦ (h.error hx).heap

theorem bind (hx : Moves Machine.Steady x) (hf : ∀ a, SparesHeap (f a)) :
    SparesHeap (x >>= f) := by
  intro m hpolicy
  cases hxm : x m with
  | ok a m₁ =>
    have hsteady := hx.ok hxm
    have hpolicy₁ : m₁.run.config.policy = .abort := by rw [hsteady.run.config, hpolicy]
    apply Ensures.bind_ok hxm
    apply (hf a m₁ hpolicy₁).mono fun _ _ h ↦ h
    intro stop m' hspares hstop
    rw [hspares hstop, hsteady.heap]
  | error stop m' => exact .of_error (bind_of_error hxm) fun _ ↦ (hx.error hxm).heap

/-- Nothing runs out of heap behind the operation. -/
theorem before (hx : SparesHeap x)
    (hf : ∀ a m, Ensures (f a) m (fun _ _ ↦ True) fun stop _ ↦ ¬stop.RanOutOfHeap) :
    SparesHeap (x >>= f) := by
  intro m hpolicy
  have hspares := hx m hpolicy
  unfold Ensures at hspares
  cases hxm : x m with
  | ok a m₁ =>
    apply Ensures.bind_ok hxm
    exact (hf a m₁).mono (fun _ _ h ↦ h) fun _ _ hnot hstop ↦ absurd hstop hnot
  | error stop m' =>
    rw [hxm] at hspares
    exact .of_error (bind_of_error hxm) hspares

end SparesHeap

namespace Exec

variable {call : Caller}

theorem alloc_spares (shape : Word) (fields : Array Word) : SparesHeap (alloc shape fields) := by
  intro m _
  unfold Ensures alloc
  cases m.heap.alloc? shape fields with
  | some placed => exact trivial
  | none => exact fun _ ↦ rfl

theorem place_spares (shape : Word) (fields : Array Word) :
    SparesHeap (place shape fields) := by
  refine .bind (read_moves _) fun fits ↦ ?_
  cases fits with
  | true => exact alloc_spares shape fields
  | false =>
    intro m hpolicy
    obtain ⟨log, habort⟩ := makeRoom_eq_abort hpolicy fields.size
    exact .of_error (bind_of_error habort) fun _ ↦ rfl

theorem push_runsOutOfStack (word : Word) (m : Machine) :
    Ensures (push word) m (fun _ _ ↦ True) fun stop _ ↦ ¬stop.RanOutOfHeap := by
  unfold Ensures push
  split
  · next hpush =>
    split at hpush
    · cases hpush
    · exact trivial
  · next hpush =>
    split at hpush
    · obtain ⟨rfl, -⟩ := EStateM.Result.error.inj hpush
      exact nofun
    · cases hpush

theorem makeObject_spares (shape : Word) : SparesHeap (makeObject shape) := by
  refine .bind (query_moves _) fun layout ↦ .bind (query_moves _) fun fields ↦ ?_
  exact .before (place_spares shape fields) fun reference m ↦
    .bind_ok rfl (push_runsOutOfStack reference _)

theorem writeField_spares (receiver : Word) (name : String) (value : Word) :
    SparesHeap (writeField receiver name value) := by
  unfold writeField
  split
  · next index _ =>
    refine .bind (query_moves _) fun layout ↦ ?_
    split
    · next offset _ =>
      intro m _
      unfold Ensures
      cases hwrite : m.heap.writeField index offset value with
      | ok heap => simp only [hwrite]
      | error failure => simp only [hwrite, implies_true]
    · exact .of_steady (fail_moves _)
  · refine .bind (decode_moves _) fun _ ↦ .bind (decode_moves _) fun _ ↦ ?_
    exact .of_steady (onRun_moves (Run.writeField_moves _ _ _))

theorem perform_spares (hcall : call.Moves) (i : Instruction) : SparesHeap (perform call i) := by
  cases i with
  | new shape => exact .before (makeObject_spares shape) fun _ _ ↦ .pure trivial
  | put word =>
    refine .bind (query_moves _) fun name ↦ .bind pop_moves fun value ↦ ?_
    refine .bind pop_moves fun receiver ↦ ?_
    exact .before (writeField_spares receiver name value) fun _ _ ↦ .pure trivial
  | _ => exact .of_steady (perform_steady hcall (fun _ h ↦ by cases h) fun _ h ↦ by cases h)

/-- A step that runs out of heap leaves all objects as they were, in a heap that may not grow. -/
theorem step_spares (hcall : call.Moves) : SparesHeap (step call) := by
  intro m hpolicy
  unfold Ensures step
  cases hfetch : m.code.fetch? m.pc with
  | none => simp only [hfetch, implies_true]
  | some fetched =>
    have hperform : SparesHeap (performFetched call fetched) := by
      cases fetched with
      | instruction i => exact perform_spares hcall i
      | _ => exact .of_steady (fail_moves _)
    have hspares := hperform { m with pc := m.pc + fetched.size } hpolicy
    unfold Ensures at hspares
    cases hresult : performFetched call fetched { m with pc := m.pc + fetched.size } with
    | ok result m' => simp only [hfetch, hresult]
    | error stop m' =>
      rw [hresult] at hspares
      simp only [hfetch, hresult]
      intro hstop
      apply hspares
      refine (Stop.ranOutOfHeap_mapFailure (fun failure ↦ ?_) stop).mp hstop
      exact Failure.cause_noteLine _ _

end Exec

/-! ## States of an execution -/

/-- From a state the run of a machine comes to another one: between two steps, or where the last
step gives a result or fails. -/
def Machine.ComesTo (call : Caller) (m m' : Machine) : Prop :=
  ∃ count m₁, m.after call count = some m₁ ∧ (m' = m₁ ∨ m' = finalState (Exec.step call m₁))

/-- The execution of a function comes to a state: that of the new machine, or where its first window
does not fit, or one of the run from there. -/
def Function.ComesTo (f : Function) (call : Caller) (receiver : Value) (args : List Value)
    (st : RunState) (m : Machine) : Prop :=
  ∃ code, f.code? = some code ∧ code.arity = args.length + 1 ∧
    (m = .new st f code ∨
      (∃ stop, Exec.enter receiver args (.new st f code) = .error stop m) ∨
      ∃ m₀, Exec.enter receiver args (.new st f code) = .ok () m₀ ∧ m₀.ComesTo call m)

/-- A machine keeps to the limits of a run. -/
structure Machine.IsWithin (config : Config) (m : Machine) : Prop where
  stack_le : m.stack.size ≤ min config.stackSize indexBound
  used_le : m.heap.used ≤ m.heap.capacity
  capacity_le : m.heap.capacity ≤ indexBound

section Reached

variable {call : Caller} {f : Function} {receiver : Value} {args : List Value} {st : RunState}
  {m m' : Machine}

theorem Function.Visits.comesTo (h : f.Visits call receiver args st m) :
    f.ComesTo call receiver args st m := by
  obtain ⟨code, m₀, count, hcode, harity, henter, hafter⟩ := h
  exact ⟨code, hcode, harity, .inr (.inr ⟨m₀, henter, count, m, hafter, .inl rfl⟩)⟩

theorem Machine.later_of_after (hcall : call.Moves) {count : Nat}
    (h : m.after call count = some m') : m.Later m' := by
  induction count generalizing m' with
  | zero =>
    obtain rfl := Option.some.inj h
    exact .refl m
  | succ count ih =>
    obtain ⟨m₁, hafter, hnext⟩ := Option.bind_eq_some_iff.mp h
    exact (ih hafter).trans ((Exec.step_moves hcall).ok (goes_of_next? hnext))

theorem Machine.ComesTo.later (hcall : call.Moves) (h : m.ComesTo call m') : m.Later m' := by
  obtain ⟨count, m₁, hafter, rfl | rfl⟩ := h
  · exact later_of_after hcall hafter
  · exact (later_of_after hcall hafter).trans (Exec.step_moves hcall m₁)

theorem Function.ComesTo.later (hcall : call.Moves) (h : f.ComesTo call receiver args st m) :
    ∃ code, (Machine.new st f code).Later m := by
  obtain ⟨code, -, -, rfl | ⟨stop, henter⟩ | ⟨m₀, henter, hm⟩⟩ := h
  · exact ⟨code, .refl _⟩
  · exact ⟨code, ((Exec.enter_moves receiver args).error henter).later⟩
  · exact ⟨code, ((Exec.enter_moves receiver args).ok henter).later.trans (hm.later hcall)⟩

/-- A new machine keeps to the limits of its run, and so does it wherever it moves on to. -/
theorem Machine.isWithin_of_later {code : Code} (h : (Machine.new st f code).Later m) :
    m.IsWithin st.config where
  stack_le := by
    have hstack := h.stack (Nat.zero_le _)
    rwa [stackLimit, h.run.config] at hstack
  used_le := h.heap.used (Nat.zero_le _)
  capacity_le := h.heap.capacity_bound (Nat.min_le_right _ _)

end Reached

/-- Whatever its code, in every state of its execution a function keeps to the limits of its run.
The capacity of its heap starts as configured and never shrinks. Where the policy is to abort, it
never changes, and a step that runs out of heap leaves the objects of the heap as they were. -/
theorem executions_within_limits (steps : Nat) (f : Function) (receiver : Value)
    (args : List Value) (st : RunState) :
    (∀ m, f.ComesTo (Function.callWithin steps) receiver args st m →
      m.IsWithin st.config ∧ st.config.heapCells ≤ m.heap.capacity ∧
      (st.config.policy = .abort → m.heap.capacity = st.config.heapCells)) ∧
    ∀ m, f.Visits (Function.callWithin steps) receiver args st m →
      (∀ m', m.ComesTo (Function.callWithin steps) m' → m.heap.capacity ≤ m'.heap.capacity) ∧
      ∀ failure m' capacity, st.config.policy = .abort →
        Exec.step (Function.callWithin steps) m = .error (.failed failure) m' →
        failure.cause = .exhausted .heap capacity → m'.heap = m.heap := by
  have hcall := Function.callWithin_moves steps
  constructor
  · intro m hm
    obtain ⟨code, hlater⟩ := hm.later hcall
    exact ⟨Machine.isWithin_of_later hlater, hlater.heap.capacity_le, hlater.heap.capacity_eq⟩
  · intro m hm
    refine ⟨fun m' hm' ↦ (hm'.later hcall).heap.capacity_le, ?_⟩
    intro failure m' capacity hpolicy hstep hcause
    obtain ⟨code, hlater⟩ := hm.comesTo.later hcall
    have hspares := Exec.step_spares hcall m (by rw [hlater.run.config]; exact hpolicy)
    unfold Ensures at hspares
    rw [hstep] at hspares
    exact hspares ⟨capacity, hcause⟩

/-! ## A heap that is too small -/

/-- The state after so many steps of the execution of a function. -/
def Function.visited? (f : Function) (call : Caller) (receiver : Value) (args : List Value)
    (st : RunState) (count : Nat) : Option Machine :=
  f.code?.bind fun code ↦
    if code.arity = args.length + 1 then
      match Exec.enter receiver args (.new st f code) with
      | .ok _ m => m.after call count
      | .error _ _ => none
    else none

theorem Function.visits_of_visited? {f : Function} {call : Caller} {receiver : Value}
    {args : List Value} {st : RunState} {count : Nat} {m : Machine}
    (h : f.visited? call receiver args st count = some m) : f.Visits call receiver args st m := by
  obtain ⟨code, hcode, hafter⟩ := Option.bind_eq_some_iff.mp h
  split at hafter
  · next harity =>
    split at hafter
    · next m₀ henter => exact ⟨code, m₀, count, hcode, harity, henter, hafter⟩
    · cases hafter
  · cases hafter

/-- A function that makes two objects without fields. -/
def twoEmptyObjects : Function where
  id := 12
  name := "raw"
  body := .bytecode
    { words := #[12, 6, 12, 6]
      lines := #[1, 1, 2, 2]
      arity := 1
      slots := 1 }

/-- A run whose heaps have room for a single object without fields. -/
def crampedRun : RunState :=
  { RunState.new { heapSize := 3 } with dict := ⟨#[.undefined, .shape 11 .empty]⟩ }

/-- The resource that ran out where a computation failed, with its capacity, and the cells in use
there. -/
def exhaustionOf? {α : Type} : EStateM.Result Stop Machine α → Option (Resource × Nat × Nat)
  | .error (.failed ⟨.exhausted resource capacity, _⟩) m => some (resource, capacity, m.heap.used)
  | _ => none

/-- Its second object does not fit, and the first one stays as it was. -/
theorem twoEmptyObjects_within_limits :
    ∃ m m' failure, twoEmptyObjects.Visits (Function.callWithin 1) .undefined [] crampedRun m ∧
      Exec.step (Function.callWithin 1) m = .error (.failed failure) m' ∧
      failure.cause = .exhausted .heap 3 ∧ m'.heap.used = 2 ∧ m'.heap = m.heap ∧
      m.IsWithin crampedRun.config := by
  have hstate : (twoEmptyObjects.visited? (Function.callWithin 1) .undefined [] crampedRun 1).map
      (fun m ↦ exhaustionOf? (Exec.step (Function.callWithin 1) m)) =
        some (some (.heap, 3, 2)) := by
    decide +kernel
  obtain ⟨m, hvisited, hresult⟩ := Option.map_eq_some_iff.mp hstate
  have hvisits := Function.visits_of_visited? hvisited
  have hlimits := executions_within_limits 1 twoEmptyObjects .undefined [] crampedRun
  unfold exhaustionOf? at hresult
  split at hresult
  · next resource capacity context m' hstep =>
    simp only [Option.some.injEq, Prod.mk.injEq] at hresult
    obtain ⟨rfl, rfl, hused⟩ := hresult
    exact ⟨m, m', _, hvisits, hstep, rfl, hused, (hlimits.2 m hvisits).2 _ m' 3 rfl hstep rfl,
      (hlimits.1 m hvisits.comesTo).1⟩
  · cases hresult

end TandemScript
