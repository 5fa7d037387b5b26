import TandemScript.Engine
import TandemScript.Proofs.Growth
import TandemScript.Proofs.Room
import TandemScript.Proofs.TreeLockstep

/-!
# How runs move on

From any state, on any engine, and also where it fails, a run keeps its limits and leaves every call
that it entered, and its dictionary only grows. The stack of a machine stays within its limit, and
its heap within its capacity; the capacity only grows, and only where the policy lets it. The
machine runs whatever code it is given.
-/

namespace TandemScript

variable {ε σ α β : Type}

/-- Computations in lockstep that go through the same states come to the same. -/
theorem lockstep_along_iff {P : σ → Prop} {x y : EStateM ε σ α} :
    Lockstep (fun _ ↦ False) (Along P) x y ↔
      ∀ s, P s → y s = x s ∧ P (finalState (x s)) := by
  constructor
  · intro h s hs
    rcases (h s s ⟨rfl, hs⟩).cases with
      ⟨a, t, _, hx, hy, rfl, ht⟩ | ⟨e, t, _, hx, hy, rfl, ht⟩ | ⟨e, t, hx, hfalse⟩
    · rw [hx, hy]
      exact ⟨rfl, ht⟩
    · rw [hx, hy]
      exact ⟨rfl, ht⟩
    · exact hfalse.elim
  · rintro h s _ ⟨rfl, hs⟩
    obtain ⟨hy, ht⟩ := h s hs
    rw [hy]
    cases hx : x s with
    | ok a t =>
      rw [hx] at ht
      exact .of_ok ⟨rfl, ht⟩
    | error e t =>
      rw [hx] at ht
      exact .of_error ⟨rfl, ht⟩

/-- Whatever the computation comes to, it moves its state along a relation. -/
def Moves (R : σ → σ → Prop) (x : EStateM ε σ α) : Prop :=
  ∀ s, R s (finalState (x s))

namespace Moves

variable {R : σ → σ → Prop} {x : EStateM ε σ α} {f : α → EStateM ε σ β}

theorem of_same [Std.Refl R] (h : ∀ s, finalState (x s) = s) : Moves R x := by
  intro s
  rw [h]
  exact Std.Refl.refl s

theorem pure [Std.Refl R] (a : α) : Moves R (Pure.pure a : EStateM ε σ α) :=
  .of_same fun _ ↦ rfl

theorem modify {g : σ → σ} (h : ∀ s, R s (g s)) : Moves R (modify g : EStateM ε σ PUnit) :=
  h

theorem ok {a : α} {s t : σ} (h : Moves R x) (hx : x s = .ok a t) : R s t := by
  have hmoves := h s
  rwa [hx] at hmoves

theorem error {e : ε} {s t : σ} (h : Moves R x) (hx : x s = .error e t) : R s t := by
  have hmoves := h s
  rwa [hx] at hmoves

theorem bind [Trans R R R] (hx : Moves R x) (hf : ∀ a, Moves R (f a)) : Moves R (x >>= f) := by
  intro s
  cases hxs : x s with
  | ok a t =>
    rw [bind_of_ok hxs]
    exact Trans.trans (hx.ok hxs) (hf a t)
  | error e t =>
    rw [bind_of_error hxs]
    exact hx.error hxs

/-- Where a property is kept along the relation, a computation that moves along it is in lockstep
with itself. -/
theorem lockstep (h : Moves R x) {waived : ε → Prop} {P : σ → Prop}
    (hP : ∀ s s', P s → R s s' → P s') : Lockstep waived (Along P) x x := by
  rintro s _ ⟨rfl, hs⟩
  cases hx : x s with
  | ok a t => exact Follows.of_ok ⟨rfl, hP s t hs (h.ok hx)⟩
  | error e t => exact Follows.of_error ⟨rfl, hP s t hs (h.error hx)⟩

theorem of_lockstep [Std.Refl R] (h : ∀ s, Lockstep (fun _ ↦ False) (Along (R s)) x x) :
    Moves R x :=
  fun s ↦ (lockstep_along_iff.mp (h s) s (Std.Refl.refl s)).2

end Moves

/-! ## States of runs -/

/-- The limits and the depth of calls are the same, and the dictionary has only grown. -/
structure RunState.Later (st st' : RunState) : Prop where
  config : st'.config = st.config
  depth : st'.depth = st.depth
  dict : st.dict.GrowsTo st'.dict

namespace RunState.Later

theorem refl (st : RunState) : st.Later st :=
  ⟨rfl, rfl, .refl _⟩

theorem trans {st st' st'' : RunState} (h : st.Later st') (h' : st'.Later st'') : st.Later st'' :=
  ⟨h'.config.trans h.config, h'.depth.trans h.depth, h.dict.trans h'.dict⟩

instance : Std.Refl RunState.Later :=
  ⟨refl⟩

instance : Trans RunState.Later RunState.Later RunState.Later :=
  ⟨trans⟩

end RunState.Later

/-- Calls move the state of the run on. -/
def Caller.Moves (call : Caller) : Prop :=
  ∀ f receiver args, TandemScript.Moves RunState.Later (call f receiver args)

namespace Run

theorem onDict_moves {x : EStateM Failure Dictionary α} (h : Grows id x) :
    Moves RunState.Later (onDict x) := by
  intro st
  rw [onDict_apply]
  cases hx : x st.dict with
  | ok a dict => exact ⟨rfl, rfl, h.ok hx⟩
  | error failure dict => exact ⟨rfl, rfl, h.error hx⟩

theorem onRecords_moves (x : EStateM Failure Records α) :
    Moves RunState.Later (onRecords x) := by
  intro st
  rw [onRecords_apply]
  cases x st.records <;> exact ⟨rfl, rfl, .refl _⟩

theorem onPool_moves {x : Compile α} (h : Grows Pool.dict x) :
    Moves RunState.Later (onPool x) := by
  intro st
  unfold onPool
  cases hx : x st.toPool with
  | ok a pool => exact ⟨rfl, rfl, h.ok hx⟩
  | error failure pool => exact ⟨rfl, rfl, h.error hx⟩

theorem setGlobal_moves (name : String) (value : Value) :
    Moves RunState.Later (setGlobal name value) :=
  .modify fun _ ↦ ⟨rfl, rfl, .refl _⟩

theorem writeField_moves (receiver : Value) (name : String) (value : Value) :
    Moves RunState.Later (writeField receiver name value) := by
  intro st
  unfold writeField
  split
  · split <;> exact ⟨rfl, rfl, .refl _⟩
  · exact ⟨rfl, rfl, .refl _⟩
  · exact .refl _

/-- A call that does not nest too deeply is entered and left. -/
theorem insideCall_of_lt (x : Run α) {st : RunState}
    (h : st.depth < st.config.nestingLimit) :
    insideCall x st = match x { st with depth := st.depth + 1 } with
      | .ok a st => .ok a { st with depth := st.depth - 1 }
      | .error stop st => .error stop { st with depth := st.depth - 1 } := by
  have hbegin : beginCall st = .ok () { st with depth := st.depth + 1 } :=
    if_neg (Nat.not_le_of_lt h)
  exact bind_of_ok hbegin

theorem insideCall_of_le (x : Run α) {st : RunState} (h : st.config.nestingLimit ≤ st.depth) :
    insideCall x st = .error (.failed ⟨.exhausted .stack st.config.stackSize, {}⟩)
      { st with log := st.log.add (.depthLimit st.depth) } := by
  have hbegin : beginCall st = .error (.failed ⟨.exhausted .stack st.config.stackSize, {}⟩)
      { st with log := st.log.add (.depthLimit st.depth) } :=
    if_pos h
  exact bind_of_error hbegin

/-- Computations that come to the same inside a call do so as calls. -/
theorem insideCall_congr {x y : Run α} {st : RunState}
    (h : st.depth < st.config.nestingLimit →
      y { st with depth := st.depth + 1 } = x { st with depth := st.depth + 1 }) :
    insideCall y st = insideCall x st := by
  by_cases hdepth : st.depth < st.config.nestingLimit
  · rw [insideCall_of_lt x hdepth, insideCall_of_lt y hdepth, h hdepth]
  · have hle := Nat.le_of_not_lt hdepth
    rw [insideCall_of_le x hle, insideCall_of_le y hle]

/-- A call is left however it ends, and one that is not entered is not left either. -/
theorem insideCall_moves {x : Run α} (h : Moves RunState.Later x) :
    Moves RunState.Later (insideCall x) := by
  intro st
  by_cases hdepth : st.depth < st.config.nestingLimit
  · rw [insideCall_of_lt x hdepth]
    have hleft : ∀ {st' : RunState}, RunState.Later { st with depth := st.depth + 1 } st' →
        st.Later { st' with depth := st'.depth - 1 } :=
      fun hlater ↦ ⟨hlater.config, congrArg (· - 1) hlater.depth, hlater.dict⟩
    cases hx : x { st with depth := st.depth + 1 } with
    | ok a st' => exact hleft (h.ok hx)
    | error stop st' => exact hleft (h.error hx)
  · rw [insideCall_of_le x (Nat.le_of_not_lt hdepth)]
    exact ⟨rfl, rfl, .refl _⟩

end Run

theorem Native.call_moves (native : Native) (receiver : Value) (args : List Value) :
    Moves RunState.Later (native.call receiver args) := by
  intro st
  unfold Native.call
  split
  · split <;> exact ⟨rfl, rfl, .refl _⟩
  · split
    · exact .refl _
    · simp only
      split <;> exact ⟨rfl, rfl, .refl _⟩

/-! ### On the tree -/

section Trees

variable {waived : Stop → Prop} {Q : RunState → Prop}

/-- The operations of the tree evaluator keep every property that states keep as they move on. -/
theorem treeLaws_along (hwaived : ∀ stop note, waived stop → waived (stop.mapFailure note))
    (hQ : ∀ st st', Q st → st.Later st' → Q st') : TreeLaws waived (Along Q) where
  noteLine stop _ := hwaived stop _
  noteFunction stop _ := hwaived stop _
  fail _ := Moves.lockstep (.of_same fun _ ↦ rfl) hQ
  notA _ _ := Moves.lockstep (.of_same fun _ ↦ rfl) hQ
  readVar env name := by
    refine Moves.lockstep (.of_same fun st ↦ ?_) hQ
    unfold Run.readVar
    split <;> rfl
  writeVar env name value declares := by
    refine Moves.lockstep (fun st ↦ ?_) hQ
    rw [Run.writeVar_apply]
    split <;> exact ⟨rfl, rfl, .refl _⟩
  readField receiver name := by
    refine Moves.lockstep (.of_same fun st ↦ ?_) hQ
    unfold Run.readField
    split <;> rfl
  writeField receiver name value := (Run.writeField_moves receiver name value).lockstep hQ
  freshId := Moves.lockstep (R := RunState.Later) (fun _ ↦ ⟨rfl, rfl, .refl _⟩) hQ
  setGlobal name value := (Run.setGlobal_moves name value).lockstep hQ
  newRecord _ := Moves.lockstep (fun _ ↦ ⟨rfl, rfl, .refl _⟩) hQ
  activate _ := Moves.lockstep (fun _ ↦ ⟨rfl, rfl, .refl _⟩) hQ
  report _ := Moves.lockstep (fun _ ↦ ⟨rfl, rfl, .refl _⟩) hQ

/-- Callers that move the state on are in lockstep with themselves. -/
theorem Caller.Moves.lockstep {call : Caller} (h : call.Moves)
    (hQ : ∀ st st', Q st → st.Later st' → Q st') : Caller.Lockstep waived (Along Q) call call :=
  fun f receiver args ↦ (h f receiver args).lockstep hQ

theorem treeLaws_later (st : RunState) : TreeLaws (fun _ ↦ False) (Along st.Later) :=
  treeLaws_along (fun _ _ ↦ id) fun _ _ ↦ .trans

end Trees

/-! ## Machines -/

/-- The heap fills up, and its capacity grows where the policy lets it. -/
structure Heap.Later (policy : HeapPolicy) (heap heap' : Heap) : Prop where
  capacity_le : heap.capacity ≤ heap'.capacity
  capacity_eq : policy = .abort → heap'.capacity = heap.capacity
  capacity_bound : heap.capacity ≤ indexBound → heap'.capacity ≤ indexBound
  used : heap.used ≤ heap.capacity → heap'.used ≤ heap'.capacity

namespace Heap.Later

variable {policy : HeapPolicy} {heap heap' heap'' : Heap}

theorem refl (heap : Heap) : heap.Later policy heap :=
  ⟨Nat.le_refl _, fun _ ↦ rfl, fun h ↦ h, fun h ↦ h⟩

theorem trans (h : heap.Later policy heap') (h' : heap'.Later policy heap'') :
    heap.Later policy heap'' where
  capacity_le := Nat.le_trans h.capacity_le h'.capacity_le
  capacity_eq hpolicy := (h'.capacity_eq hpolicy).trans (h.capacity_eq hpolicy)
  capacity_bound := h'.capacity_bound ∘ h.capacity_bound
  used := h'.used ∘ h.used

theorem enlarge (heap : Heap) (fieldCount : Nat) :
    heap.Later .grow (heap.enlarge fieldCount) := by
  obtain ⟨capacity, henlarge, hle, hbound, -⟩ := heap.enlarge_spec fieldCount
  rw [henlarge]
  refine ⟨hle, nofun, ?_, fun hused ↦ Nat.le_trans hused hle⟩
  intro hcapacity
  rwa [Nat.max_eq_right hcapacity] at hbound

theorem alloc {shape reference : Word} {fields : Array Word}
    (h : heap.alloc? shape fields = some (reference, heap')) : heap.Later policy heap' := by
  unfold alloc? place? at h
  split at h
  · next hplace =>
    split at hplace
    · next hfits =>
      obtain ⟨-, rfl⟩ := Prod.mk.inj (Option.some.inj h)
      refine ⟨Nat.le_refl _, fun _ ↦ rfl, fun h ↦ h, fun _ ↦ ?_⟩
      rw [used_add]
      exact (heap.fits_iff _).mp hfits
    · cases hplace
  · cases h

theorem writeField {index offset : Nat} {word : Word}
    (h : heap.writeField index offset word = .ok heap') : heap.Later policy heap' := by
  unfold Heap.writeField at h
  split at h
  · obtain rfl := Except.ok.inj h
    refine ⟨Nat.le_refl _, fun _ ↦ rfl, fun h ↦ h, fun hused ↦ ?_⟩
    rwa [Heap.used, setCell, Array.size_setIfInBounds]
  · cases h

end Heap.Later

/-- The machine has moved on, within the limits where it was within them. -/
structure Machine.Later (m m' : Machine) : Prop where
  run : m.run.Later m'.run
  stack : m.stack.size ≤ m.stackLimit → m'.stack.size ≤ m'.stackLimit
  heap : m.heap.Later m.run.config.policy m'.heap

/-- The machine has moved on with the same heap. -/
structure Machine.Steady (m m' : Machine) : Prop where
  run : m.run.Later m'.run
  stack : m.stack.size ≤ m.stackLimit → m'.stack.size ≤ m'.stackLimit
  heap : m'.heap = m.heap

namespace Machine

variable {m m' m'' : Machine}

theorem Later.refl (m : Machine) : m.Later m :=
  ⟨.refl _, fun h ↦ h, .refl _⟩

theorem Later.trans (h : m.Later m') (h' : m'.Later m'') : m.Later m'' where
  run := h.run.trans h'.run
  stack := h'.stack ∘ h.stack
  heap := h.heap.trans (h.run.config ▸ h'.heap)

instance : Std.Refl Machine.Later :=
  ⟨Later.refl⟩

instance : Trans Machine.Later Machine.Later Machine.Later :=
  ⟨Later.trans⟩

theorem Later.of_heap {heap : Heap} (h : m.heap.Later m.run.config.policy heap) :
    m.Later { m with heap } :=
  ⟨.refl _, fun h ↦ h, h⟩

namespace Steady

theorem refl (m : Machine) : m.Steady m :=
  ⟨.refl _, fun h ↦ h, rfl⟩

theorem trans (h : m.Steady m') (h' : m'.Steady m'') : m.Steady m'' :=
  ⟨h.run.trans h'.run, h'.stack ∘ h.stack, h'.heap.trans h.heap⟩

instance : Std.Refl Machine.Steady :=
  ⟨refl⟩

instance : Trans Machine.Steady Machine.Steady Machine.Steady :=
  ⟨trans⟩

theorem later (h : m.Steady m') : m.Later m' :=
  ⟨h.run, h.stack, h.heap ▸ .refl _⟩

theorem of_run {st : RunState} (h : m.run.Later st) : m.Steady { m with run := st } := by
  refine ⟨h, fun hstack ↦ ?_, rfl⟩
  simpa only [stackLimit, h.config] using hstack

/-- The stack may lose cells, or come to any size within the limit. -/
theorem of_stack (hrun : m'.run = m.run) (hheap : m'.heap = m.heap)
    (hstack : m'.stack.size ≤ m.stack.size ∨ m'.stack.size ≤ m.stackLimit) : m.Steady m' := by
  refine ⟨hrun ▸ .refl _, fun hwithin ↦ ?_, hheap⟩
  rw [stackLimit, hrun]
  rcases hstack with hle | hle
  · exact Nat.le_trans hle hwithin
  · exact hle

end Steady

end Machine

theorem Moves.later {x : Exec α} (h : Moves Machine.Steady x) : Moves Machine.Later x :=
  fun m ↦ (h m).later

namespace Exec

/-! ### Operations that leave the heap alone -/

theorem onRun_moves {x : Run α} (h : Moves RunState.Later x) :
    Moves Machine.Steady (onRun x) := by
  intro m
  rw [onRun_apply]
  cases hx : x m.run with
  | ok a st => exact .of_run (h.ok hx)
  | error stop st => exact .of_run (h.error hx)

theorem fail_moves (failure : Failure) : Moves Machine.Steady (fail failure : Exec α) :=
  .of_same fun _ ↦ rfl

theorem read_moves (f : Machine → α) : Moves Machine.Steady (read f) :=
  .of_same fun _ ↦ rfl

theorem query_moves (f : Machine → Except Failure α) : Moves Machine.Steady (query f) := by
  refine .of_same fun m ↦ ?_
  unfold query
  split <;> rfl

theorem report_moves (level : Level) (event : Machine → Event) :
    Moves Machine.Steady (report level event) := by
  intro m
  obtain ⟨log, hlog⟩ := report_eq level event m
  rw [hlog]
  exact .of_run ⟨rfl, rfl, .refl _⟩

/-- Code goes on somewhere else, with no more cells on the stack than before. -/
theorem jump_moves {f : Machine → Machine} (hrun : ∀ m, (f m).run = m.run)
    (hheap : ∀ m, (f m).heap = m.heap) (hstack : ∀ m, (f m).stack.size ≤ m.stack.size) :
    Moves Machine.Steady (modify f : Exec PUnit) :=
  .modify fun m ↦ .of_stack (hrun m) (hheap m) (.inl (hstack m))

theorem shrink_moves (count : Machine → Nat) :
    Moves Machine.Steady
      (modify fun m ↦ { m with stack := m.stack.shrink (count m) } : Exec PUnit) := by
  refine jump_moves (fun _ ↦ rfl) (fun _ ↦ rfl) fun m ↦ ?_
  rw [Array.size_shrink]
  exact Nat.min_le_right _ _

theorem push_moves (word : Word) : Moves Machine.Steady (push word) := by
  intro m
  unfold push
  split
  · exact .refl _
  · next hroom =>
    refine .of_stack rfl rfl (.inr ?_)
    rw [finalState, Array.size_push]
    omega

theorem pop_moves : Moves Machine.Steady pop := by
  intro m
  unfold pop
  split
  · refine .of_stack rfl rfl (.inl ?_)
    rw [finalState, Array.size_pop]
    omega
  · exact .refl _

theorem setCell_moves (index : Nat) (word : Word) : Moves Machine.Steady (setCell index word) := by
  intro m
  unfold setCell
  split
  · refine .of_stack rfl rfl (.inl ?_)
    exact Nat.le_of_eq Array.size_setIfInBounds
  · exact .refl _

theorem decode_moves (word : Word) : Moves Machine.Steady (decode word) := by
  intro m
  unfold decode
  split
  · exact onRun_moves (Run.onRecords_moves _) m
  · split <;> exact .refl _

theorem encode_moves (value : Value) : Moves Machine.Steady (encode value) :=
  fun m ↦ onRun_moves (Run.onDict_moves (TandemScript.encode_grows _ _ value)) m

theorem decodeCells_moves (index count : Nat) :
    Moves Machine.Steady (decodeCells index count) := by
  induction count generalizing index with
  | zero => exact .pure _
  | succ count ih =>
    refine .bind (query_moves _) fun _ ↦ .bind (decode_moves _) fun _ ↦ ?_
    exact .bind (ih _) fun _ ↦ .pure _

theorem completeWindow_moves (bp slots : Nat) (savedBp savedPc function : Word) :
    Moves Machine.Steady (completeWindow bp slots savedBp savedPc function) := by
  intro m
  unfold completeWindow
  simp only
  split
  · exact .refl _
  · next hroom =>
    refine .of_stack rfl rfl (.inr ?_)
    simp only [finalState, Array.size_push, Array.size_append, Array.size_replicate,
      Array.size_shrink]
    unfold linkCells at hroom
    omega

variable {call : Caller}

theorem callOutside_moves (hcall : call.Moves) (callee : Function) (base argc : Nat) :
    Moves Machine.Steady (callOutside call callee base argc) := by
  refine .bind (query_moves _) fun _ ↦ .bind (decode_moves _) fun _ ↦ ?_
  refine .bind (decodeCells_moves _ _) fun _ ↦ .bind (report_moves _ _) fun _ ↦ ?_
  refine .bind (onRun_moves (hcall _ _ _)) fun _ ↦ .bind (encode_moves _) fun _ ↦ ?_
  exact .bind (shrink_moves _) fun _ ↦ push_moves _

theorem callInside_moves (callee : Function) (code : Code) (base argc : Nat) :
    Moves Machine.Steady (callInside callee code base argc) := by
  unfold callInside
  split
  · exact fail_moves _
  · refine .bind (read_moves _) fun _ ↦ .bind (read_moves _) fun _ ↦ ?_
    refine .bind (read_moves _) fun _ ↦ ?_
    refine .bind (onRun_moves (Run.onDict_moves (Dictionary.intern_grows _))) fun _ ↦ ?_
    refine .bind (completeWindow_moves _ _ _ _ _) fun _ ↦ ?_
    refine .bind (jump_moves (fun _ ↦ rfl) (fun _ ↦ rfl) fun _ ↦ Nat.le_refl _) fun _ ↦ ?_
    exact report_moves _ _

theorem callFunction_moves (hcall : call.Moves) (argc : Nat) :
    Moves Machine.Steady (callFunction call argc) := by
  refine .bind (query_moves _) fun _ ↦ .bind (query_moves _) fun _ ↦ ?_
  refine .bind (decode_moves _) fun value ↦ ?_
  cases value with
  | function callee =>
    simp only
    split
    · exact callInside_moves _ _ _ _
    · exact callOutside_moves hcall _ _ _
  | _ => exact .of_same fun _ ↦ rfl

theorem returnFrom_moves : Moves Machine.Steady returnFrom := by
  refine .bind pop_moves fun _ ↦ .bind (query_moves _) fun _ ↦ ?_
  split
  · exact .pure _
  · refine .bind (query_moves _) fun _ ↦ .bind (query_moves _) fun _ ↦ ?_
    split
    · exact fail_moves _
    · refine .bind (jump_moves (fun _ ↦ rfl) (fun _ ↦ rfl) fun m ↦ ?_) fun _ ↦ ?_
      · simp only
        split
        · exact Nat.le_refl _
        · rw [Array.size_shrink]
          exact Nat.min_le_right _ _
      · exact .bind (push_moves _) fun _ ↦ .bind (report_moves _ _) fun _ ↦ .pure _

theorem readField_moves (receiver : Word) (name : String) :
    Moves Machine.Steady (readField receiver name) := by
  unfold readField
  split
  · refine .bind (query_moves _) fun _ ↦ ?_
    split
    · exact query_moves _
    · exact .pure _
  · refine .bind (decode_moves _) fun _ ↦ .bind (query_moves _) fun _ ↦ ?_
    exact encode_moves _

/-- The two cells that are swapped were taken off the stack, so that there is room for them. -/
theorem swap_moves (call : Caller) : Moves Machine.Steady (perform call .swap) := by
  intro m
  cases hfirst : pop m with
  | error stop m₁ =>
    have hswap : perform call .swap m = .error stop m₁ := bind_of_error hfirst
    rw [hswap]
    exact pop_moves.error hfirst
  | ok first m₁ =>
    cases hsecond : pop m₁ with
    | error stop m₂ =>
      have hswap : perform call .swap m = .error stop m₂ :=
        (bind_of_ok hfirst).trans (bind_of_error hsecond)
      rw [hswap]
      exact (pop_moves.ok hfirst).trans (pop_moves.error hsecond)
    | ok second m₂ =>
      have hswap : perform call .swap m =
          .ok none { m₂ with stack := (m₂.stack.push first).push second } :=
        (bind_of_ok hfirst).trans (bind_of_ok hsecond)
      obtain ⟨hback, rfl⟩ := of_pop_ok hfirst
      obtain ⟨hback', rfl⟩ := of_pop_ok hsecond
      have hsize := Array.size_pos_of_mem (Array.mem_of_back? hback)
      have hsize' := Array.size_pos_of_mem (Array.mem_of_back? hback')
      rw [hswap]
      refine .of_stack rfl rfl (.inl ?_)
      simp only [finalState, Array.size_push, Array.size_pop] at hsize' ⊢
      omega

/-- Every instruction leaves the heap alone that neither makes an object nor writes a field. -/
theorem perform_steady (hcall : call.Moves) {i : Instruction} (hnew : ∀ shape, i ≠ .new shape)
    (hput : ∀ name, i ≠ .put name) : Moves Machine.Steady (perform call i) := by
  cases i with
  | const word => exact .bind (push_moves _) fun _ ↦ .pure _
  | lookup word =>
    refine .bind (query_moves _) fun _ ↦ .bind (read_moves _) fun _ ↦ ?_
    exact .bind (encode_moves _) fun _ ↦ .bind (push_moves _) fun _ ↦ .pure _
  | register word =>
    refine .bind (query_moves _) fun _ ↦ .bind pop_moves fun _ ↦ ?_
    refine .bind (decode_moves _) fun _ ↦ .bind (onRun_moves ?_) fun _ ↦ .pure _
    exact Run.setGlobal_moves _ _
  | load slot =>
    refine .bind (query_moves _) fun _ ↦ .bind (query_moves _) fun _ ↦ ?_
    exact .bind (push_moves _) fun _ ↦ .pure _
  | store slot =>
    refine .bind (query_moves _) fun _ ↦ .bind pop_moves fun _ ↦ ?_
    exact .bind (setCell_moves _ _) fun _ ↦ .pure _
  | dup => exact .bind (query_moves _) fun _ ↦ .bind (push_moves _) fun _ ↦ .pure _
  | pop => exact .bind pop_moves fun _ ↦ .pure _
  | swap => exact swap_moves call
  | call argc => exact .bind (callFunction_moves hcall _) fun _ ↦ .pure _
  | ret => exact returnFrom_moves
  | goto target =>
    exact .bind (jump_moves (fun _ ↦ rfl) (fun _ ↦ rfl) fun _ ↦ Nat.le_refl _) fun _ ↦ .pure _
  | jumpIfFalse target =>
    refine .bind pop_moves fun word ↦ ?_
    split
    · exact .bind (jump_moves (fun _ ↦ rfl) (fun _ ↦ rfl) fun _ ↦ Nat.le_refl _) fun _ ↦ .pure _
    · exact .pure _
  | new shape => exact absurd rfl (hnew shape)
  | get word =>
    refine .bind (query_moves _) fun _ ↦ .bind pop_moves fun _ ↦ ?_
    exact .bind (readField_moves _ _) fun _ ↦ .bind (push_moves _) fun _ ↦ .pure _
  | put word => exact absurd rfl (hput word)

/-! ### Operations on the heap -/

theorem makeRoom_moves (fieldCount : Nat) : Moves Machine.Later (makeRoom fieldCount) := by
  refine .bind (report_moves _ _).later fun _ ↦ .bind (report_moves _ _).later fun _ m ↦ ?_
  simp only
  split
  · exact .refl _
  · next hpolicy =>
    have henlarge : m.Later { m with heap := m.heap.enlarge fieldCount } :=
      .of_heap (hpolicy ▸ .enlarge m.heap fieldCount)
    split
    · exact henlarge.trans (report_moves _ _ _).later
    · exact henlarge

theorem alloc_moves (shape : Word) (fields : Array Word) :
    Moves Machine.Later (alloc shape fields) := by
  intro m
  unfold alloc
  split
  · next halloc => exact .of_heap (.alloc halloc)
  · exact .refl _

theorem place_moves (shape : Word) (fields : Array Word) :
    Moves Machine.Later (place shape fields) := by
  refine .bind (read_moves _).later fun fits ↦ ?_
  cases fits with
  | true => exact alloc_moves _ _
  | false => exact .bind (makeRoom_moves _) fun _ ↦ alloc_moves _ _

theorem makeObject_moves (shape : Word) : Moves Machine.Later (makeObject shape) := by
  refine .bind (query_moves _).later fun _ ↦ .bind (query_moves _).later fun _ ↦ ?_
  refine .bind (place_moves _ _) fun _ ↦ ?_
  exact Moves.later (.bind (shrink_moves _) fun _ ↦ push_moves _)

theorem writeField_moves (receiver : Word) (name : String) (value : Word) :
    Moves Machine.Later (writeField receiver name value) := by
  unfold writeField
  split
  · refine .bind (query_moves _).later fun _ ↦ ?_
    split
    · intro m
      simp only
      split
      · next hwrite => exact .of_heap (.writeField hwrite)
      · exact .refl _
    · exact (fail_moves _).later
  · refine .bind (decode_moves _).later fun _ ↦ .bind (decode_moves _).later fun _ ↦ ?_
    exact (onRun_moves (Run.writeField_moves _ _ _)).later

theorem perform_moves (hcall : call.Moves) (i : Instruction) :
    Moves Machine.Later (perform call i) := by
  cases i with
  | new shape => exact .bind (makeObject_moves _) fun _ ↦ .pure _
  | put word =>
    refine .bind (query_moves _).later fun _ ↦ .bind pop_moves.later fun _ ↦ ?_
    exact .bind pop_moves.later fun _ ↦ .bind (writeField_moves _ _ _) fun _ ↦ .pure _
  | _ => exact (perform_steady hcall (fun _ h ↦ by cases h) fun _ h ↦ by cases h).later

/-! ### Runs -/

theorem step_moves (hcall : call.Moves) : Moves Machine.Later (step call) := by
  intro m
  unfold step
  simp only
  split
  · exact .refl _
  · next fetched _ =>
    have hperform : Moves Machine.Later (performFetched call fetched) := by
      cases fetched with
      | instruction i => exact perform_moves hcall i
      | _ => exact (fail_moves _).later
    have hfetched : m.Steady { m with pc := m.pc + fetched.size } :=
      .of_stack rfl rfl (.inl (Nat.le_refl _))
    cases hresult : performFetched call fetched { m with pc := m.pc + fetched.size } with
    | ok result m' => exact hfetched.later.trans (hperform.ok hresult)
    | error stop m' => exact hfetched.later.trans (hperform.error hresult)

theorem run_moves (hcall : call.Moves) (steps : Nat) : Moves Machine.Later (run call steps) := by
  induction steps with
  | zero => exact .of_same fun _ ↦ rfl
  | succ steps ih =>
    refine .bind (step_moves hcall) fun result ↦ ?_
    cases result with
    | some result => exact .pure _
    | none => exact ih

theorem pushValues_moves (values : List Value) :
    Moves Machine.Steady (enter.pushValues values) := by
  induction values with
  | nil => exact .pure _
  | cons value rest ih =>
    exact .bind (encode_moves _) fun _ ↦ .bind (push_moves _) fun _ ↦ ih

theorem enter_moves (receiver : Value) (args : List Value) :
    Moves Machine.Steady (enter receiver args) := by
  refine .bind (read_moves _) fun _ ↦ ?_
  refine .bind (onRun_moves (Run.onDict_moves (Dictionary.intern_grows _))) fun _ ↦ ?_
  refine .bind (push_moves _) fun _ ↦ .bind (read_moves _) fun _ ↦ ?_
  refine .bind (jump_moves (fun _ ↦ rfl) (fun _ ↦ rfl) fun _ ↦ Nat.le_refl _) fun _ ↦ ?_
  refine .bind (pushValues_moves _) fun _ ↦ .bind (read_moves _) fun _ ↦ ?_
  exact completeWindow_moves _ _ _ _ _

theorem session_moves (hcall : call.Moves) (steps : Nat) (receiver : Value) (args : List Value) :
    Moves Machine.Later (session call steps receiver args) :=
  .bind (enter_moves _ _).later fun _ ↦ .bind (run_moves hcall _) fun _ ↦ (decode_moves _).later

end Exec

/-! ## Engines -/

theorem Function.execute_moves {call : Caller} (hcall : call.Moves) (steps : Nat) (f : Function)
    (receiver : Value) (args : List Value) :
    Moves RunState.Later (f.execute call steps receiver args) := by
  unfold execute
  split
  · exact .of_same fun _ ↦ rfl
  · split
    · exact .of_same fun _ ↦ rfl
    · next code _ _ =>
      intro st
      have hmoves := Exec.session_moves hcall steps receiver args
      have hnew : st.Later (Machine.new st f code).run := ⟨rfl, rfl, .refl _⟩
      unfold runMachine
      cases hsession : Exec.session call steps receiver args (.new st f code) with
      | ok value m => exact hnew.trans (hmoves.ok hsession).run
      | error stop m => exact hnew.trans (hmoves.error hsession).run

theorem Function.evaluate_moves {call : Caller} (hcall : call.Moves) (f : Function)
    (params : List String) (body : Block) (env : Env) (receiver : Value) (args : List Value) :
    Moves RunState.Later (f.evaluate call params body env receiver args) :=
  .of_lockstep fun st ↦ (treeLaws_later st).evaluateFunction (hcall.lockstep fun _ _ ↦ .trans)
    f params body env receiver args

/-- A call of any function moves the state of the run on, however it ends. -/
theorem Function.callWithin_moves (steps : Nat) : (Function.callWithin steps).Moves := by
  induction steps with
  | zero => exact fun _ _ _ ↦ .of_same fun _ ↦ rfl
  | succ steps ih =>
    intro f receiver args
    unfold Function.callWithin
    split
    · exact Native.call_moves _ _ _
    · exact Run.insideCall_moves (f.evaluate_moves ih _ _ _ _ _)
    · exact Run.insideCall_moves (f.execute_moves ih _ _ _)

/-- A run of a program moves the state of the run on, on each of the engines. -/
theorem Script.runOn_moves (engine : Engine) (steps : Nat) (script : Script) :
    Moves RunState.Later (script.runOn engine steps) := by
  have hcalls := Function.callWithin_moves steps
  cases engine with
  | machine =>
    refine .bind (Run.onPool_moves ?_) fun main ↦ hcalls main _ _
    exact Block.compileBody_grows _ _ _ script.body
  | tree =>
    have hactivate : ∀ bindings, Moves RunState.Later (Run.activate bindings) :=
      fun _ _ ↦ ⟨rfl, rfl, .refl _⟩
    refine .bind (hactivate _) fun frame ↦ Run.insideCall_moves (.of_lockstep fun st ↦ ?_)
    exact (treeLaws_later st).evaluateBody (hcalls.lockstep fun _ _ ↦ .trans) "main" script.body
      [frame]

/-! ## Dictionaries of runs -/

/-- The dictionary of a run. -/
abbrev RunState.dictOf (st : RunState) : Dictionary :=
  st.dict

/-- The dictionary of the run that a machine is part of. -/
abbrev Machine.dictOf (m : Machine) : Dictionary :=
  m.run.dict

theorem Moves.runGrows {x : Run α} (h : Moves RunState.Later x) : Grows RunState.dictOf x :=
  fun st ↦ (h st).dict

theorem Moves.grows {x : Exec α} (h : Moves Machine.Later x) : Grows Machine.dictOf x :=
  fun m ↦ (h m).run.dict

end TandemScript
