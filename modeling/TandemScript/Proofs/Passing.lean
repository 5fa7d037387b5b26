import TandemScript.Proofs.Checked
import TandemScript.Proofs.Rules

/-!
# Checks that pass

Every operation of the machine but the return passes its checks wherever the cells in use end within
the heap, and it leaves the heap so. The heap alone has to be known for this: what an operation
needs of the stack or of the code, it has looked at itself.
-/

namespace TandemScript

/-! ## Bounded heaps -/

namespace Heap

/-- The cells in use end where the heap ends, or before. -/
def IsBounded (heap : Heap) : Prop :=
  heap.used ≤ heap.capacity

/-- A heap that grows stays bounded. -/
theorem IsBounded.enlarge {heap : Heap} (h : heap.IsBounded) (fieldCount : Nat) :
    (heap.enlarge fieldCount).IsBounded := by
  obtain ⟨capacity, henlarge, hle, -⟩ := heap.enlarge_spec fieldCount
  rw [henlarge]
  exact Nat.le_trans h hle

theorem IsBounded.writeField {heap heap' : Heap} (h : heap.IsBounded) {index offset : Nat}
    {word : Word} (hwrite : heap.writeField index offset word = .ok heap') : heap'.IsBounded := by
  unfold Heap.writeField at hwrite
  split at hwrite
  · obtain rfl := Except.ok.inj hwrite
    simpa only [IsBounded, used, setCell, Array.size_setIfInBounds] using h
  · simp at hwrite

end Heap

/-! ## Computations whose checks pass -/

namespace Checked

section Passing

variable {ε σ α β : Type} {I : σ → Prop} {E : ε → Prop}

theorem lift_bind (x : EStateM ε σ α) (f : α → EStateM ε σ β) :
    lift (x >>= f) = lift x >>= fun a ↦ lift (f a) := by
  funext s
  simp only [lift, Bind.bind, EStateM.bind]
  cases x s <;> rfl

theorem lift_of_ok {x : EStateM ε σ α} {s t : σ} {a : α} (h : x s = .ok a t) :
    lift x s = .ok a t := by
  simp only [lift, h]

theorem lift_of_error {x : EStateM ε σ α} {s t : σ} {e : ε} (h : x s = .error e t) :
    lift x s = .error (.stopped e) t := by
  simp only [lift, h]

/-- From states with the invariant all checks of the second computation pass: it is the first one,
which keeps the invariant and stops as expected, if it does. -/
def Passes (I : σ → Prop) (E : ε → Prop) (x : EStateM ε σ α) (y : Checked ε σ α) : Prop :=
  ∀ s, I s → y s = lift x s ∧ Ensures x s (fun _ t ↦ I t) fun e _ ↦ E e

namespace Passes

theorem unchecked {x : EStateM ε σ α}
    (h : ∀ s, I s → Ensures x s (fun _ t ↦ I t) fun e _ ↦ E e) : Passes I E x (lift x) :=
  fun s hs ↦ ⟨rfl, h s hs⟩

theorem pure (a : α) : Passes I E (Pure.pure a) (Pure.pure a) :=
  fun _ hs ↦ ⟨rfl, .pure hs⟩

/-- What is known of the values of the first computation may be used in the rest. -/
theorem bind_of {P : α → Prop} {x : EStateM ε σ α} {y : Checked ε σ α} {f : α → EStateM ε σ β}
    {g : α → Checked ε σ β} (hx : Passes I E x y)
    (hP : ∀ s, I s → Ensures x s (fun a _ ↦ P a) fun _ _ ↦ True)
    (hf : ∀ a, P a → Passes I E (f a) (g a)) : Passes I E (x >>= f) (y >>= g) := by
  intro s hs
  obtain ⟨hy, hx⟩ := hx s hs
  have hP := hP s hs
  unfold Ensures at hx hP
  rw [lift_bind]
  cases h : x s with
  | ok a t =>
    rw [h] at hx hP
    have hlift := lift_of_ok h
    obtain ⟨hg, hrest⟩ := hf a hP t hx
    rw [bind_of_ok (hy.trans hlift), bind_of_ok hlift]
    exact ⟨hg, .bind_ok h hrest⟩
  | error e t =>
    rw [h] at hx
    have hlift := lift_of_error h
    rw [bind_of_error (hy.trans hlift), bind_of_error hlift]
    exact ⟨rfl, .of_error (bind_of_error h) hx⟩

theorem bind {x : EStateM ε σ α} {y : Checked ε σ α} {f : α → EStateM ε σ β}
    {g : α → Checked ε σ β} (hx : Passes I E x y) (hf : ∀ a, Passes I E (f a) (g a)) :
    Passes I E (x >>= f) (y >>= g) := by
  refine hx.bind_of (P := fun _ ↦ True) (fun s hs ↦ ?_) fun a _ ↦ hf a
  exact (hx s hs).2.mono (fun _ _ _ ↦ trivial) fun _ _ _ ↦ trivial

end Passes

end Passing

/-! ## Copies -/

section Copies

variable {σ : Type} {dict : Dictionary} {heap : Heap}

end Copies

end Checked

/-! ## Operations of the machine -/

/-- The computation leaves the heap alone, and it is not cut off. -/
def Exec.IsPlain {α : Type} (x : Exec α) : Prop :=
  ∀ m, Ensures x m (fun _ m' ↦ m'.heap = m.heap) fun stop _ ↦ stop ≠ .unfinished

/-- A computation over the state of a run that is not cut off. -/
def Run.IsWhole {α : Type} (x : Run α) : Prop :=
  ∀ st, Ensures x st (fun _ _ ↦ True) fun stop _ ↦ stop ≠ .unfinished

theorem Run.onDict_isWhole {α : Type} (x : EStateM Failure Dictionary α) : (onDict x).IsWhole := by
  intro st
  unfold Ensures
  rw [onDict_apply]
  cases x st.dict <;> simp

namespace Exec.IsPlain

variable {α β : Type}

theorem pure (a : α) : IsPlain (Pure.pure a) :=
  fun _ ↦ .pure rfl

theorem bind {x : Exec α} {f : α → Exec β} (hx : IsPlain x) (hf : ∀ a, IsPlain (f a)) :
    IsPlain (x >>= f) := by
  intro m
  refine Ensures.bind (hx m) fun a m' hm' ↦ ?_
  exact (hf a m').mono (fun _ _ h ↦ h.trans hm') fun _ _ h ↦ h

theorem query (f : Machine → Except Failure α) : IsPlain (query f) := by
  intro m
  unfold Ensures Exec.query
  cases f m <;> simp

theorem read (f : Machine → α) : IsPlain (read f) :=
  fun _ ↦ .of_ok rfl rfl

theorem modify {f : Machine → Machine} (h : ∀ m, (f m).heap = m.heap) : IsPlain (modify f) :=
  fun m ↦ .of_ok rfl (h m)

theorem fail (failure : Failure) : IsPlain (fail failure : Exec α) :=
  fun _ ↦ .of_error rfl (by simp)

theorem typeError (expected : String) (found : Value) :
    IsPlain (typeError expected found : Exec α) :=
  fun _ ↦ .of_error rfl (by simp)

theorem onRun {x : Run α} (hx : x.IsWhole) : IsPlain (onRun x) := by
  intro m
  have hx := hx m.run
  unfold Ensures at hx ⊢
  rw [onRun_apply]
  cases h : x m.run with
  | ok a st => rfl
  | error stop st => simpa only [h] using hx

theorem report (level : Level) (event : Machine → Event) : IsPlain (report level event) := by
  intro m
  obtain ⟨log, h⟩ := report_eq level event m
  exact .of_ok h rfl

theorem push (word : Word) : IsPlain (push word) := by
  intro m
  by_cases hfull : m.stackLimit ≤ m.stack.size
  · exact .of_error (if_pos hfull) (by simp)
  · exact .of_ok (if_neg hfull) rfl

theorem pop : IsPlain pop := by
  intro m
  unfold Ensures Exec.pop
  cases m.stack.back? <;> simp

theorem setCell (index : Nat) (word : Word) : IsPlain (setCell index word) := by
  intro m
  by_cases hindex : index < m.stack.size
  · exact .of_ok (if_pos hindex) rfl
  · exact .of_error (if_neg hindex) (by simp)

theorem decode (word : Word) : IsPlain (decode word) := by
  intro m
  unfold Ensures
  rw [decode_eq]
  cases TandemScript.decode m.run.dict m.heap word m.run.records <;> simp

theorem encode (value : Value) : IsPlain (encode value) :=
  fun m ↦ onRun (Run.onDict_isWhole _) m

theorem completeWindow (bp slots : Nat) (savedBp savedPc function : Word) :
    IsPlain (completeWindow bp slots savedBp savedPc function) := by
  intro m
  by_cases hfull : m.stackLimit < bp + slots + linkCells
  · exact .of_error (if_pos hfull) (by simp)
  · exact .of_ok (if_neg hfull) rfl

theorem callInside (callee : Function) (code : Code) (base argc : Nat) :
    IsPlain (callInside callee code base argc) := by
  unfold Exec.callInside
  split
  · exact fail _
  · refine bind (read _) fun bp ↦ bind (read _) fun pc ↦ bind (read _) fun function ↦ ?_
    refine bind (onRun (Run.onDict_isWhole _)) fun caller ↦ ?_
    refine bind (completeWindow _ _ _ _ _) fun _ ↦ ?_
    exact bind (modify fun _ ↦ rfl) fun _ ↦ report _ _

theorem pushValues (values : List Value) : IsPlain (enter.pushValues values) := by
  induction values with
  | nil => exact pure _
  | cons value rest ih => exact bind (encode value) fun word ↦ bind (push word) fun _ ↦ ih

theorem enter (receiver : Value) (args : List Value) : IsPlain (enter receiver args) := by
  refine bind (read _) fun function ↦ bind (onRun (Run.onDict_isWhole _)) fun callee ↦ ?_
  refine bind (push callee) fun _ ↦ bind (read _) fun bp ↦ bind (modify fun _ ↦ rfl) fun _ ↦ ?_
  refine bind (pushValues _) fun _ ↦ bind (read _) fun slots ↦ ?_
  exact completeWindow _ _ _ _ _

end Exec.IsPlain

/-- Some call of a function is cut off. -/
def Caller.CutsOff (call : Caller) : Prop :=
  ∃ f receiver args st st', call f receiver args st = .error .unfinished st'

namespace Checked

/-- The checks of a computation pass in every machine whose heap is bounded. Its heap stays
bounded, and it is cut off only in a call. -/
abbrev Holds {α : Type} (call : Caller) (x : Exec α) (y : CheckedExec α) : Prop :=
  Passes (fun m ↦ m.heap.IsBounded) (fun stop ↦ stop = .unfinished → call.CutsOff) x y

variable {α : Type} {call : Caller}

theorem Passes.of_isPlain {x : Exec α} (h : x.IsPlain) : Holds call x (lift x) := by
  refine Passes.unchecked fun m hm ↦ (h m).mono ?_ fun _ _ hstop hcut ↦ absurd hcut hstop
  intro _ m' hheap
  rw [hheap]
  exact hm

theorem on_apply {σ τ ε ε' : Type} (part : σ → τ) (put : σ → τ → σ) (fail : ε → ε')
    (x : EStateM ε τ α) (s : σ) :
    on part put fail (lift x) s =
      match x (part s) with
      | .ok a t => .ok a (put s t)
      | .error e t => .error (.stopped (fail e)) (put s t) := by
  unfold on lift
  cases x (part s) <;> rfl

/-- A look-up whose checks pass. -/
theorem Passes.asking {f : Machine → Except Failure α} {x : Machine → Checked Failure Unit α}
    (h : ∀ m : Machine, m.heap.IsBounded → x m = lift (MonadExcept.ofExcept (f m))) :
    Holds call (Exec.query f) (asking x) := by
  intro m hm
  have hquery : Holds call (Exec.query f) (lift (Exec.query f)) :=
    .of_isPlain (.query f)
  refine ⟨?_, (hquery m hm).2⟩
  unfold Checked.asking
  rw [h m hm, on_apply]
  unfold lift Exec.query
  cases f m <;> rfl

theorem Passes.of_eq {x : Exec α} {y : CheckedExec α} (hx : x.IsPlain)
    (h : ∀ m : Machine, m.heap.IsBounded → y m = lift x m) : Holds call x y :=
  fun m hm ↦ ⟨h m hm, (Passes.of_isPlain hx m hm).2⟩

end Checked

end TandemScript
