import TandemScript.Proofs.Room
import TandemScript.Proofs.TreeLockstep

/-!
# Larger limits

Limits only ever end a run. Two runs of one program, under limits of which the second ones allow
at least as much, are in lockstep until the first one is out of stack or heap: they hold the same
words, values, records and output all the time, and differ in their limits, in how much room their
heaps have, and in what they log.
-/

namespace TandemScript

/-- The second limits allow at least as much as the first ones. -/
structure Config.Within (small large : Config) : Prop where
  stack : small.stackSize ≤ large.stackSize
  heap : small.heapSize ≤ large.heapSize
  policy : small.policy = .abort ∨ large.policy = .grow

namespace Config.Within

variable {small large : Config}

theorem stackCells_le (h : small.Within large) : small.stackCells ≤ large.stackCells := by
  have hstack := h.stack
  unfold stackCells
  omega

theorem heapCells_le (h : small.Within large) : small.heapCells ≤ large.heapCells := by
  have hheap := h.heap
  unfold heapCells
  omega

theorem nestingLimit_le (h : small.Within large) : small.nestingLimit ≤ large.nestingLimit := by
  have hdiv := Nat.div_le_div_right (c := cellsPerNestedCall) h.stack
  unfold nestingLimit
  omega

end Config.Within

/-! ## States of runs -/

namespace RunState

/-- The state under other limits and with another log. -/
def withLimits (st : RunState) (config : Config) (log : Log) : RunState :=
  { st with config, log }

/-- The second state is the first one under the larger limits. -/
def Roomier (small large : Config) (st st' : RunState) : Prop :=
  st.config = small ∧ ∃ log, st' = st.withLimits large log

end RunState

/-- In lockstep under larger limits, until a resource runs out. -/
abbrev Run.Tolerant (small large : Config) {α : Type} (x : Run α) : Prop :=
  Lockstep Stop.IsExhaustion (RunState.Roomier small large) x x

namespace Run.Tolerant

variable {small large : Config}

theorem beginCall (h : small.Within large) : Run.Tolerant small large Run.beginCall := by
  rintro st _ ⟨rfl, log, rfl⟩
  unfold Run.beginCall
  by_cases hlimit : st.config.nestingLimit ≤ st.depth
  · rw [if_pos hlimit]
    exact Follows.of_waived ⟨_, _, rfl⟩
  · have hlarger : ¬ (st.withLimits large log).config.nestingLimit ≤ st.depth := by
      have hle : st.config.nestingLimit ≤ (st.withLimits large log).config.nestingLimit :=
        h.nestingLimit_le
      omega
    rw [if_neg hlimit]
    change Follows _ _ _ (if (st.withLimits large log).config.nestingLimit ≤ st.depth then _ else _)
    rw [if_neg hlarger]
    exact Follows.of_ok ⟨rfl, log, rfl⟩

theorem report (event : RunState → Event) :
    Run.Tolerant small large (do Run.report (event (← get))) := by
  rintro st _ ⟨hconfig, log, rfl⟩
  exact Follows.of_ok ⟨hconfig, _, rfl⟩

theorem readVar (env : Env) (name : String) :
    Run.Tolerant small large (Run.readVar env name) := by
  rintro st _ ⟨hconfig, log, rfl⟩
  unfold Run.readVar
  simp only [RunState.withLimits]
  cases st.frames.lookup? env name <;> exact Follows.of_ok ⟨hconfig, log, rfl⟩

theorem writeVar (env : Env) (name : String) (value : Value) (declares : Bool) :
    Run.Tolerant small large (Run.writeVar env name value declares) := by
  rintro st _ ⟨hconfig, log, rfl⟩
  unfold Run.writeVar
  simp only [RunState.withLimits]
  split
  · exact Follows.of_ok ⟨hconfig, log, rfl⟩
  · exact Follows.of_error ⟨hconfig, log, rfl⟩

theorem readField (receiver : Value) (name : String) :
    Run.Tolerant small large (Run.readField receiver name) := by
  rintro st _ ⟨hconfig, log, rfl⟩
  have hsame : (st.withLimits large log).readField receiver name = st.readField receiver name := by
    cases receiver <;> rfl
  unfold Run.readField
  rw [hsame]
  cases st.readField receiver name with
  | ok value => exact Follows.of_ok ⟨hconfig, log, rfl⟩
  | error failure => exact Follows.of_error ⟨hconfig, log, rfl⟩

theorem writeField (receiver : Value) (name : String) (value : Value) :
    Run.Tolerant small large (Run.writeField receiver name value) := by
  rintro st _ ⟨hconfig, log, rfl⟩
  unfold Run.writeField
  simp only [RunState.withLimits]
  split
  · split
    · exact Follows.of_error ⟨hconfig, log, rfl⟩
    · exact Follows.of_ok ⟨hconfig, log, rfl⟩
  · exact Follows.of_ok ⟨hconfig, log, rfl⟩
  · exact Follows.of_error ⟨hconfig, log, rfl⟩

theorem treeLaws :
    TreeLaws Stop.IsExhaustion (RunState.Roomier small large) where
  noteLine stop line h := h.mapFailure (Failure.cause_noteLine · line)
  noteFunction stop name h := h.mapFailure (Failure.cause_noteFunction · name)
  fail failure := fun st st' hst ↦ Follows.of_error hst
  notA expected found := by
    rintro st _ ⟨hconfig, log, rfl⟩
    exact Follows.of_error ⟨hconfig, log, rfl⟩
  readVar := readVar
  writeVar := writeVar
  readField := readField
  writeField := writeField
  freshId := by
    rintro st _ ⟨hconfig, log, rfl⟩
    exact Follows.of_ok ⟨hconfig, log, rfl⟩
  setGlobal name value := by
    rintro st _ ⟨hconfig, log, rfl⟩
    exact Follows.of_ok ⟨hconfig, log, rfl⟩
  newRecord record := by
    rintro st _ ⟨hconfig, log, rfl⟩
    exact Follows.of_ok ⟨hconfig, log, rfl⟩
  activate bindings := by
    rintro st _ ⟨hconfig, log, rfl⟩
    exact Follows.of_ok ⟨hconfig, log, rfl⟩
  report := report

theorem callLaws (h : small.Within large) :
    CallLaws Stop.IsExhaustion (RunState.Roomier small large) where
  beginCall := beginCall h
  leaveCall := by
    rintro st _ ⟨hconfig, log, rfl⟩
    exact ⟨hconfig, log, rfl⟩

/-- A function of the host never sees the limits. -/
theorem native (op : Native) (receiver : Value) (args : List Value) :
    Run.Tolerant small large (op.call receiver args) := by
  rintro st _ ⟨hconfig, log, rfl⟩
  unfold Native.call
  simp only [RunState.withLimits]
  split
  · split
    · exact Follows.of_ok ⟨hconfig, log, rfl⟩
    · exact Follows.of_error ⟨hconfig, log, rfl⟩
  · split
    · exact Follows.of_error ⟨hconfig, log, rfl⟩
    · split
      · exact Follows.of_ok ⟨hconfig, log, rfl⟩
      · exact Follows.of_error ⟨hconfig, log, rfl⟩

theorem onDict {α : Type} (x : EStateM Failure Dictionary α) :
    Run.Tolerant small large (Run.onDict x) := by
  rintro st _ ⟨hconfig, log, rfl⟩
  have hdict : (st.withLimits large log).dict = st.dict := rfl
  rw [Run.onDict_apply, Run.onDict_apply, hdict]
  cases x st.dict with
  | ok a dict => exact Follows.of_ok ⟨hconfig, log, rfl⟩
  | error failure dict => exact Follows.of_error ⟨hconfig, log, rfl⟩

theorem onRecords {α : Type} (x : EStateM Failure Records α) :
    Run.Tolerant small large (Run.onRecords x) := by
  rintro st _ ⟨hconfig, log, rfl⟩
  have hrecords : (st.withLimits large log).records = st.records := rfl
  rw [Run.onRecords_apply, Run.onRecords_apply, hrecords]
  cases x st.records with
  | ok a records => exact Follows.of_ok ⟨hconfig, log, rfl⟩
  | error failure records => exact Follows.of_error ⟨hconfig, log, rfl⟩

end Run.Tolerant

/-! ## Copies of objects -/

section Copies

variable (dict : Dictionary) (heap : Heap) (capacity : Nat)

theorem copyFields_withCapacity (object : Unfilled) (offset count : Nat) :
    copyFields dict { heap with capacity } object offset count =
      copyFields dict heap object offset count := by
  induction count generalizing offset with
  | zero => rfl
  | succ count ih =>
    simp only [copyFields, ih]
    rfl

theorem copyPending_withCapacity (rounds : Nat) :
    copyPending dict { heap with capacity } rounds = copyPending dict heap rounds := by
  induction rounds with
  | zero => rfl
  | succ rounds ih => simp only [copyPending, ih, copyFields_withCapacity]

theorem decode_withCapacity (word : Word) :
    decode dict { heap with capacity } word = decode dict heap word := by
  have hcopy (index : Nat) :
      copyOut dict { heap with capacity } index = copyOut dict heap index := by
    unfold copyOut
    rw [copyPending_withCapacity]
    rfl
  unfold decode
  simp only [hcopy]

end Copies

/-! ## Machines -/

namespace Machine

/-- The machine under other limits, with another log and another capacity of its heap. -/
def withLimits (m : Machine) (config : Config) (log : Log) (capacity : Nat) : Machine :=
  { m with run := m.run.withLimits config log, heap := { m.heap with capacity } }

/-- The second machine is the first one under the larger limits. Heaps that grow may grow at
different moments, so that their capacities are only compared where the first one cannot grow. -/
def Roomier (small large : Config) (m m' : Machine) : Prop :=
  m.run.config = small ∧ m.heap.capacity ≤ indexBound ∧
    ∃ log capacity, (small.policy = .abort → m.heap.capacity ≤ capacity) ∧
      m' = m.withLimits large log capacity

end Machine

/-- In lockstep under larger limits, until a resource runs out. -/
abbrev Exec.Tolerant (small large : Config) {α : Type} (x : Exec α) : Prop :=
  Lockstep Stop.IsExhaustion (Machine.Roomier small large) x x

namespace Exec.Tolerant

variable {small large : Config}

theorem fail {α : Type} (failure : Failure) :
    Exec.Tolerant small large (Exec.fail failure : Exec α) :=
  fun _ _ h ↦ Follows.of_error h

theorem read {α : Type} {f : Machine → α}
    (hf : ∀ m config log capacity, f (m.withLimits config log capacity) = f m) :
    Exec.Tolerant small large (Exec.read f) := by
  rintro m _ ⟨hconfig, hbound, log, capacity, hcapacity, rfl⟩
  unfold Exec.read
  rw [hf]
  exact Follows.of_ok ⟨hconfig, hbound, log, capacity, hcapacity, rfl⟩

theorem query {α : Type} {f : Machine → Except Failure α}
    (hf : ∀ m config log capacity, f (m.withLimits config log capacity) = f m) :
    Exec.Tolerant small large (Exec.query f) := by
  rintro m _ ⟨hconfig, hbound, log, capacity, hcapacity, rfl⟩
  unfold Exec.query
  rw [hf]
  cases f m with
  | ok a => exact Follows.of_ok ⟨hconfig, hbound, log, capacity, hcapacity, rfl⟩
  | error failure => exact Follows.of_error ⟨hconfig, hbound, log, capacity, hcapacity, rfl⟩

theorem onRun {α : Type} {x : Run α} (hx : Run.Tolerant small large x) :
    Exec.Tolerant small large (Exec.onRun x) := by
  rintro m _ ⟨hconfig, hbound, log, capacity, hcapacity, rfl⟩
  have h := hx m.run (m.run.withLimits large log) ⟨hconfig, log, rfl⟩
  have hrun : (m.withLimits large log capacity).run = m.run.withLimits large log := rfl
  rw [Exec.onRun_apply, Exec.onRun_apply, hrun]
  cases hxm : x m.run with
  | ok a st =>
    rw [hxm] at h
    obtain ⟨_, hst', hconfig', log', rfl⟩ := h
    rw [hst']
    exact Follows.of_ok ⟨hconfig', hbound, log', capacity, hcapacity, rfl⟩
  | error stop st =>
    rw [hxm] at h
    rcases h with hwaived | ⟨_, hst', hconfig', log', rfl⟩
    · exact Follows.of_waived hwaived
    · rw [hst']
      exact Follows.of_error ⟨hconfig', hbound, log', capacity, hcapacity, rfl⟩

/-- What is logged does not matter. -/
theorem report (level : Level) (event : Machine → Event) :
    Exec.Tolerant small large (Exec.report level event) := by
  rintro m _ ⟨hconfig, hbound, log, capacity, hcapacity, rfl⟩
  have hlogged (m' : Machine) : ∃ log', Exec.report level event m' =
      .ok () { m' with run := { m'.run with log := log' } } := by
    unfold Exec.report
    split
    · exact ⟨_, rfl⟩
    · exact ⟨m'.run.log, rfl⟩
  obtain ⟨log₁, h₁⟩ := hlogged m
  obtain ⟨log₂, h₂⟩ := hlogged (m.withLimits large log capacity)
  rw [h₁, h₂]
  exact Follows.of_ok ⟨hconfig, hbound, log₂, capacity, hcapacity, rfl⟩

theorem typeError {α : Type} (expected : String) (found : Value) :
    Exec.Tolerant small large (Exec.typeError expected found : Exec α) := by
  rintro m _ ⟨hconfig, hbound, log, capacity, hcapacity, rfl⟩
  exact Follows.of_error ⟨hconfig, hbound, log, capacity, hcapacity, rfl⟩

theorem modify {f : Machine → Machine}
    (hf : ∀ m log capacity, (f m).run.config = m.run.config ∧ (f m).heap = m.heap ∧
      f (m.withLimits large log capacity) = (f m).withLimits large log capacity) :
    Exec.Tolerant small large (modify f) := by
  rintro m _ ⟨hconfig, hbound, log, capacity, hcapacity, rfl⟩
  obtain ⟨hconfig', hheap, hcommutes⟩ := hf m log capacity
  rw [← hheap] at hbound hcapacity
  exact Follows.of_ok ⟨hconfig'.trans hconfig, hbound, log, capacity, hcapacity, hcommutes⟩

theorem push (h : small.Within large) (word : Word) :
    Exec.Tolerant small large (Exec.push word) := by
  rintro m _ ⟨rfl, hbound, log, capacity, hcapacity, rfl⟩
  unfold Exec.push
  by_cases hfull : m.stackLimit ≤ m.stack.size
  · rw [if_pos hfull]
    exact Follows.of_waived ⟨_, _, rfl⟩
  · have hlarger : ¬ (m.withLimits large log capacity).stackLimit ≤ m.stack.size := by
      have hle : m.stackLimit ≤ (m.withLimits large log capacity).stackLimit := h.stackCells_le
      omega
    have hstack : (m.withLimits large log capacity).stack = m.stack := rfl
    rw [if_neg hfull, hstack, if_neg hlarger]
    exact Follows.of_ok ⟨rfl, hbound, log, capacity, hcapacity, rfl⟩

theorem pop : Exec.Tolerant small large Exec.pop := by
  rintro m _ ⟨hconfig, hbound, log, capacity, hcapacity, rfl⟩
  have hstack : (m.withLimits large log capacity).stack = m.stack := rfl
  unfold Exec.pop
  rw [hstack]
  cases m.stack.back? with
  | some word => exact Follows.of_ok ⟨hconfig, hbound, log, capacity, hcapacity, rfl⟩
  | none => exact Follows.of_error ⟨hconfig, hbound, log, capacity, hcapacity, rfl⟩

theorem top : Exec.Tolerant small large Exec.top :=
  query fun _ _ _ _ ↦ rfl

theorem cell (index : Nat) : Exec.Tolerant small large (Exec.cell index) :=
  query fun _ _ _ _ ↦ rfl

theorem setCell (index : Nat) (word : Word) :
    Exec.Tolerant small large (Exec.setCell index word) := by
  rintro m _ ⟨hconfig, hbound, log, capacity, hcapacity, rfl⟩
  have hstack : (m.withLimits large log capacity).stack = m.stack := rfl
  unfold Exec.setCell
  rw [hstack]
  split
  · exact Follows.of_ok ⟨hconfig, hbound, log, capacity, hcapacity, rfl⟩
  · exact Follows.of_error ⟨hconfig, hbound, log, capacity, hcapacity, rfl⟩

theorem truncate (count : Nat) : Exec.Tolerant small large (Exec.truncate count) :=
  modify fun _ _ _ ↦ ⟨rfl, rfl, rfl⟩

theorem encode (value : Value) : Exec.Tolerant small large (Exec.encode value) := by
  rintro m _ ⟨hconfig, hbound, log, capacity, hcapacity, rfl⟩
  exact onRun (Run.Tolerant.onDict _) m _ ⟨hconfig, hbound, log, capacity, hcapacity, rfl⟩

theorem decode (word : Word) : Exec.Tolerant small large (Exec.decode word) := by
  rintro m _ ⟨hconfig, hbound, log, capacity, hcapacity, rfl⟩
  unfold Exec.decode
  cases word.view with
  | reference index =>
    have hdecode := decode_withCapacity m.run.dict m.heap capacity word
    have hrun : Exec.Tolerant small large _ :=
      onRun (Run.Tolerant.onRecords (TandemScript.decode m.run.dict m.heap word))
    replace hrun := hrun m _ ⟨hconfig, hbound, log, capacity, hcapacity, rfl⟩
    simp only [Machine.withLimits, RunState.withLimits] at hrun ⊢
    rw [hdecode]
    exact hrun
  | _ =>
    have hdict : (m.withLimits large log capacity).run.dict = m.run.dict := rfl
    simp only [hdict]
    cases plainValue m.run.dict word with
    | ok value => exact Follows.of_ok ⟨hconfig, hbound, log, capacity, hcapacity, rfl⟩
    | error failure => exact Follows.of_error ⟨hconfig, hbound, log, capacity, hcapacity, rfl⟩

theorem decodeCells (index count : Nat) :
    Exec.Tolerant small large (Exec.decodeCells index count) := by
  induction count generalizing index with
  | zero => exact Lockstep.pure _
  | succ count ih =>
    refine Lockstep.bind (cell index) fun word ↦ ?_
    refine Lockstep.bind (decode word) fun value ↦ ?_
    exact Lockstep.bind (ih (index + 1)) fun rest ↦ Lockstep.pure _

theorem name (word : Word) : Exec.Tolerant small large (Exec.name word) :=
  query fun _ _ _ _ ↦ rfl

/-! ### Calls -/

theorem completeWindow (h : small.Within large) (bp slots : Nat) (savedBp savedPc function : Word) :
    Exec.Tolerant small large (Exec.completeWindow bp slots savedBp savedPc function) := by
  rintro m _ ⟨rfl, hbound, log, capacity, hcapacity, rfl⟩
  unfold Exec.completeWindow
  by_cases hfull : m.stackLimit < bp + slots + linkCells
  · simp only [if_pos hfull]
    exact Follows.of_waived ⟨_, _, rfl⟩
  · have hlarger : ¬ (m.withLimits large log capacity).stackLimit < bp + slots + linkCells := by
      have hle : m.stackLimit ≤ (m.withLimits large log capacity).stackLimit := h.stackCells_le
      omega
    simp only [if_neg hfull, if_neg hlarger]
    exact Follows.of_ok ⟨rfl, hbound, log, capacity, hcapacity, rfl⟩

variable {call : Caller}

theorem callOutside (h : small.Within large)
    (hcall : Caller.Lockstep Stop.IsExhaustion (RunState.Roomier small large) call call)
    (callee : Function) (base argc : Nat) :
    Exec.Tolerant small large (Exec.callOutside call callee base argc) := by
  refine Lockstep.bind (cell _) fun word ↦ ?_
  refine Lockstep.bind (decode word) fun receiver ↦ ?_
  refine Lockstep.bind (decodeCells base argc) fun args ↦ ?_
  refine Lockstep.bind (report _ _) fun _ ↦ ?_
  refine Lockstep.bind (onRun (hcall callee receiver args)) fun value ↦ ?_
  refine Lockstep.bind (encode value) fun result ↦ ?_
  exact Lockstep.bind (truncate _) fun _ ↦ push h result

theorem callInside (h : small.Within large) (callee : Function) (code : Code) (base argc : Nat) :
    Exec.Tolerant small large (Exec.callInside callee code base argc) := by
  unfold Exec.callInside
  split
  · exact fail _
  · refine Lockstep.bind (read fun _ _ _ _ ↦ rfl) fun bp ↦ ?_
    refine Lockstep.bind (read fun _ _ _ _ ↦ rfl) fun pc ↦ ?_
    refine Lockstep.bind (read fun _ _ _ _ ↦ rfl) fun function ↦ ?_
    refine Lockstep.bind (onRun (Run.Tolerant.onDict _)) fun caller ↦ ?_
    refine Lockstep.bind (completeWindow h _ _ _ _ _) fun _ ↦ ?_
    refine Lockstep.bind (modify fun _ _ _ ↦ ⟨rfl, rfl, rfl⟩) fun _ ↦ ?_
    exact report _ _

theorem callFunction (h : small.Within large)
    (hcall : Caller.Lockstep Stop.IsExhaustion (RunState.Roomier small large) call call)
    (argc : Nat) : Exec.Tolerant small large (Exec.callFunction call argc) := by
  refine Lockstep.bind (query fun _ _ _ _ ↦ rfl) fun base ↦ ?_
  refine Lockstep.bind (cell _) fun word ↦ ?_
  refine Lockstep.bind (decode word) fun callee ↦ ?_
  cases callee with
  | function callee =>
    simp only
    split
    · exact callInside h _ _ _ _
    · exact callOutside h hcall _ _ _
  | _ => exact typeError _ _

theorem returnFrom (h : small.Within large) : Exec.Tolerant small large Exec.returnFrom := by
  refine Lockstep.bind pop fun result ↦ ?_
  refine Lockstep.bind (query fun _ _ _ _ ↦ rfl) fun savedPc ↦ ?_
  split
  · exact Lockstep.pure _
  · refine Lockstep.bind (query fun _ _ _ _ ↦ rfl) fun savedBp ↦ ?_
    refine Lockstep.bind (query fun _ _ _ _ ↦ rfl) fun caller ↦ ?_
    split
    · exact fail _
    · refine Lockstep.bind (modify fun _ _ _ ↦ ⟨rfl, rfl, rfl⟩) fun _ ↦ ?_
      refine Lockstep.bind (push h result) fun _ ↦ ?_
      exact Lockstep.bind (report _ _) fun _ ↦ Lockstep.pure _

/-! ### Objects -/

theorem heapLimit_le (h : small.Within large) {m m' : Machine}
    (hm : Machine.Roomier small large m m') : m.heapLimit ≤ m'.heapLimit := by
  obtain ⟨rfl, hbound, log, capacity, hcapacity, rfl⟩ := hm
  have hpolicy : (m.withLimits large log capacity).run.config.policy = large.policy := rfl
  have hheap : (m.withLimits large log capacity).heap.capacity = capacity := rfl
  unfold Machine.heapLimit
  rw [hpolicy, hheap]
  cases hlarge : large.policy with
  | abort =>
    have hsmall : m.run.config.policy = .abort := by
      rcases h.policy with hsmall | hgrow
      · exact hsmall
      · simp [hlarge] at hgrow
    rw [hsmall]
    exact hcapacity hsmall
  | grow => cases m.run.config.policy <;> simp only <;> omega

theorem place (h : small.Within large) (shape : Word) (fields : Array Word) :
    Exec.Tolerant small large (Exec.place shape fields) := by
  intro m m' hm
  have hlimit := heapLimit_le h hm
  obtain ⟨hconfig, hbound, log, capacity, hcapacity, rfl⟩ := hm
  rcases Exec.place_spec m shape fields with
    ⟨log₁, capacity₁, reference, hplace, hreference, hfits, hle, hlimit₁⟩ |
    ⟨failure, log₁, capacity₁, hplace, hexhausted, _⟩
  · have hroom : m.heap.FitsWithin fields.size (m.withLimits large log capacity).heapLimit :=
      hfits.mono (Nat.le_trans hlimit₁ hlimit)
    have hbound₁ : capacity₁ ≤ indexBound := by
      unfold Machine.heapLimit at hlimit₁
      split at hlimit₁ <;> omega
    have habort₁ : small.policy = .abort → capacity₁ ≤ m.heap.capacity := by
      intro habort
      simpa only [Machine.heapLimit, hconfig, habort] using hlimit₁
    rcases Exec.place_spec (m.withLimits large log capacity) shape fields with
      ⟨log₂, capacity₂, reference₂, hplace₂, hreference₂, _, hle₂, _⟩ |
      ⟨_, _, _, _, _, hfull⟩
    · obtain rfl : reference = reference₂ := by
        have hsame := hreference.symm.trans hreference₂
        exact Option.some.inj hsame
      rw [hplace, hplace₂]
      refine Follows.of_ok ⟨hconfig, hbound₁, log₂, capacity₂, fun habort ↦ ?_, rfl⟩
      exact Nat.le_trans (habort₁ habort) (Nat.le_trans (hcapacity habort) hle₂)
    · have hsome : (Word.reference? (m.withLimits large log capacity).heap.used).isSome := by
        change (Word.reference? m.heap.used).isSome
        rw [hreference]
        rfl
      exact absurd ⟨hroom, hsome⟩ hfull
  · rw [hplace]
    exact Follows.of_waived hexhausted

theorem lastCells (count : Nat) (missing : Inconsistency) :
    Exec.Tolerant small large (Exec.lastCells count missing) :=
  query fun _ _ _ _ ↦ rfl

theorem makeObject (h : small.Within large) (shape : Word) :
    Exec.Tolerant small large (Exec.makeObject shape) := by
  refine Lockstep.bind (query fun _ _ _ _ ↦ rfl) fun layout ↦ ?_
  refine Lockstep.bind (lastCells _ _) fun fields ↦ ?_
  refine Lockstep.bind (place h shape fields) fun reference ↦ ?_
  refine Lockstep.bind (modify fun _ _ _ ↦ ⟨rfl, rfl, rfl⟩) fun _ ↦ ?_
  exact push h reference

theorem layoutOf (index : Nat) : Exec.Tolerant small large (Exec.layoutOf index) :=
  query fun _ _ _ _ ↦ rfl

theorem readField (receiver : Word) (name : String) :
    Exec.Tolerant small large (Exec.readField receiver name) := by
  unfold Exec.readField
  split
  · refine Lockstep.bind (layoutOf _) fun layout ↦ ?_
    split
    · exact query fun _ _ _ _ ↦ rfl
    · exact Lockstep.pure _
  · refine Lockstep.bind (decode receiver) fun receiver ↦ ?_
    refine Lockstep.bind (query fun m config log capacity ↦ ?_) fun value ↦ encode value
    cases receiver <;> rfl

theorem writeCell (index offset : Nat) (value : Word) :
    Exec.Tolerant small large (fun m ↦
      match m.heap.writeField index offset value with
      | .ok heap => .ok () { m with heap }
      | .error failure => .error (.failed failure) m) := by
  rintro m _ ⟨hconfig, hbound, log, capacity, hcapacity, rfl⟩
  have hcell : (m.withLimits large log capacity).heap.cellOfField index offset =
      m.heap.cellOfField index offset := rfl
  unfold Heap.writeField
  simp only [hcell]
  cases m.heap.cellOfField index offset with
  | ok cell => exact Follows.of_ok ⟨hconfig, hbound, log, capacity, hcapacity, rfl⟩
  | error failure => exact Follows.of_error ⟨hconfig, hbound, log, capacity, hcapacity, rfl⟩

theorem writeField (receiver : Word) (name : String) (value : Word) :
    Exec.Tolerant small large (Exec.writeField receiver name value) := by
  unfold Exec.writeField
  split
  · refine Lockstep.bind (layoutOf _) fun layout ↦ ?_
    split
    · exact writeCell _ _ _
    · exact fail _
  · refine Lockstep.bind (decode receiver) fun receiver ↦ ?_
    refine Lockstep.bind (decode value) fun value ↦ ?_
    exact onRun (Run.Tolerant.writeField receiver name value)

/-! ### Steps and runs -/

theorem perform (h : small.Within large)
    (hcall : Caller.Lockstep Stop.IsExhaustion (RunState.Roomier small large) call call)
    (i : Instruction) : Exec.Tolerant small large (Exec.perform call i) := by
  cases i with
  | const word => exact Lockstep.bind (push h word) fun _ ↦ Lockstep.pure _
  | lookup word =>
    refine Lockstep.bind (name word) fun name ↦ ?_
    refine Lockstep.bind (read fun _ _ _ _ ↦ rfl) fun value ↦ ?_
    refine Lockstep.bind (encode value) fun word ↦ ?_
    exact Lockstep.bind (push h word) fun _ ↦ Lockstep.pure _
  | register word =>
    refine Lockstep.bind (name word) fun name ↦ ?_
    refine Lockstep.bind pop fun word ↦ ?_
    refine Lockstep.bind (decode word) fun value ↦ ?_
    refine Lockstep.bind (onRun ?_) fun _ ↦ Lockstep.pure _
    exact Run.Tolerant.treeLaws.setGlobal name value
  | load slot =>
    refine Lockstep.bind (query fun _ _ _ _ ↦ rfl) fun index ↦ ?_
    refine Lockstep.bind (cell index) fun word ↦ ?_
    exact Lockstep.bind (push h word) fun _ ↦ Lockstep.pure _
  | store slot =>
    refine Lockstep.bind (query fun _ _ _ _ ↦ rfl) fun index ↦ ?_
    refine Lockstep.bind pop fun word ↦ ?_
    exact Lockstep.bind (setCell index word) fun _ ↦ Lockstep.pure _
  | dup =>
    refine Lockstep.bind top fun word ↦ ?_
    exact Lockstep.bind (push h word) fun _ ↦ Lockstep.pure _
  | pop => exact Lockstep.bind pop fun _ ↦ Lockstep.pure _
  | swap =>
    refine Lockstep.bind pop fun first ↦ ?_
    refine Lockstep.bind pop fun second ↦ ?_
    exact Lockstep.bind (modify fun _ _ _ ↦ ⟨rfl, rfl, rfl⟩) fun _ ↦ Lockstep.pure _
  | call argc => exact Lockstep.bind (callFunction h hcall argc.toNat) fun _ ↦ Lockstep.pure _
  | ret => exact returnFrom h
  | goto target => exact Lockstep.bind (modify fun _ _ _ ↦ ⟨rfl, rfl, rfl⟩) fun _ ↦ Lockstep.pure _
  | jumpIfFalse target =>
    refine Lockstep.bind pop fun word ↦ ?_
    split
    · exact Lockstep.bind (modify fun _ _ _ ↦ ⟨rfl, rfl, rfl⟩) fun _ ↦ Lockstep.pure _
    · exact Lockstep.pure _
  | new shape => exact Lockstep.bind (makeObject h shape) fun _ ↦ Lockstep.pure _
  | get word =>
    refine Lockstep.bind (name word) fun name ↦ ?_
    refine Lockstep.bind pop fun receiver ↦ ?_
    refine Lockstep.bind (readField receiver name) fun value ↦ ?_
    exact Lockstep.bind (push h value) fun _ ↦ Lockstep.pure _
  | put word =>
    refine Lockstep.bind (name word) fun name ↦ ?_
    refine Lockstep.bind pop fun value ↦ ?_
    refine Lockstep.bind pop fun receiver ↦ ?_
    exact Lockstep.bind (writeField receiver name value) fun _ ↦ Lockstep.pure _

theorem step (h : small.Within large)
    (hcall : Caller.Lockstep Stop.IsExhaustion (RunState.Roomier small large) call call) :
    Exec.Tolerant small large (Exec.step call) := by
  rintro m _ ⟨hconfig, hbound, log, capacity, hcapacity, rfl⟩
  have hcode : (m.withLimits large log capacity).code = m.code := rfl
  have hpc : (m.withLimits large log capacity).pc = m.pc := rfl
  unfold Exec.step
  simp only [hcode, hpc]
  cases m.code.fetch? m.pc with
  | none => exact Follows.of_error ⟨hconfig, hbound, log, capacity, hcapacity, rfl⟩
  | some fetched =>
    have hperformed : Exec.Tolerant small large (Exec.performFetched call fetched) := by
      cases fetched with
      | instruction i => exact perform h hcall i
      | truncated op => exact fail _
      | unknown word => exact fail _
    have hfollows := hperformed { m with pc := m.pc + fetched.size }
      ({ m with pc := m.pc + fetched.size }.withLimits large log capacity)
      ⟨hconfig, hbound, log, capacity, hcapacity, rfl⟩
    simp only [Machine.withLimits] at hfollows ⊢
    rcases hfollows.cases with
      ⟨result, n, n', hx, hy, hR⟩ | ⟨stop, n, n', hx, hy, hR⟩ | ⟨stop, n, hx, hwaived⟩
    · rw [hx, hy]
      exact Follows.of_ok hR
    · rw [hx, hy]
      have hsame := hR
      obtain ⟨-, -, log', capacity', -, rfl⟩ := hsame
      exact Follows.of_error hR
    · rw [hx]
      exact Follows.of_waived (hwaived.mapFailure fun failure ↦ by
        rw [Failure.cause_noteLine, Failure.cause_noteFunction, Failure.cause_noteOp])

theorem run (h : small.Within large)
    (hcall : Caller.Lockstep Stop.IsExhaustion (RunState.Roomier small large) call call)
    (steps : Nat) : Exec.Tolerant small large (Exec.run call steps) := by
  induction steps with
  | zero => exact fun m m' hm ↦ Follows.of_error hm
  | succ steps ih =>
    refine Lockstep.bind (step h hcall) fun result ↦ ?_
    cases result with
    | some result => exact Lockstep.pure _
    | none => exact ih

theorem enter (h : small.Within large) (receiver : Value) (args : List Value) :
    Exec.Tolerant small large (Exec.enter receiver args) := by
  have hpushed (values : List Value) :
      Exec.Tolerant small large (Exec.enter.pushValues values) := by
    induction values with
    | nil => exact Lockstep.pure _
    | cons value rest ih =>
      refine Lockstep.bind (encode value) fun word ↦ ?_
      exact Lockstep.bind (push h word) fun _ ↦ ih
  refine Lockstep.bind (read fun _ _ _ _ ↦ rfl) fun function ↦ ?_
  refine Lockstep.bind (onRun (Run.Tolerant.onDict _)) fun callee ↦ ?_
  refine Lockstep.bind (push h callee) fun _ ↦ ?_
  refine Lockstep.bind (read fun _ _ _ _ ↦ rfl) fun bp ↦ ?_
  refine Lockstep.bind (modify fun _ _ _ ↦ ⟨rfl, rfl, rfl⟩) fun _ ↦ ?_
  refine Lockstep.bind (hpushed _) fun _ ↦ ?_
  refine Lockstep.bind (read fun _ _ _ _ ↦ rfl) fun slots ↦ ?_
  exact completeWindow h _ _ _ _ _

theorem session (h : small.Within large)
    (hcall : Caller.Lockstep Stop.IsExhaustion (RunState.Roomier small large) call call)
    (steps : Nat) (receiver : Value) (args : List Value) :
    Exec.Tolerant small large (Exec.session call steps receiver args) := by
  refine Lockstep.bind (enter h receiver args) fun _ ↦ ?_
  exact Lockstep.bind (run h hcall steps) fun result ↦ decode result

end Exec.Tolerant

/-! ## Engines -/

section Engines

variable {small large : Config}

theorem Run.Tolerant.runMachine (h : small.Within large) {call : Caller}
    (hcall : Caller.Lockstep Stop.IsExhaustion (RunState.Roomier small large) call call)
    (steps : Nat) (f : Function) (code : Code) (receiver : Value) (args : List Value) :
    Run.Tolerant small large (f.runMachine call steps code receiver args) := by
  rintro st _ ⟨rfl, log, rfl⟩
  have hm : Machine.Roomier st.config large (.new st f code)
      (.new (st.withLimits large log) f code) :=
    ⟨rfl, Nat.min_le_right _ _, log, large.heapCells, fun _ ↦ h.heapCells_le, rfl⟩
  have hfollows := Exec.Tolerant.session h hcall steps receiver args _ _ hm
  unfold Function.runMachine
  rcases hfollows.cases with
    ⟨value, m, _, hx, hy, hconfig, -, log', _, -, rfl⟩ |
    ⟨stop, m, _, hx, hy, hconfig, -, log', _, -, rfl⟩ | ⟨stop, m, hx, hwaived⟩
  · rw [hx, hy]
    exact Follows.of_ok ⟨hconfig, log', rfl⟩
  · rw [hx, hy]
    exact Follows.of_error ⟨hconfig, log', rfl⟩
  · rw [hx]
    exact Follows.of_waived hwaived

theorem Run.Tolerant.execute (h : small.Within large) {call : Caller}
    (hcall : Caller.Lockstep Stop.IsExhaustion (RunState.Roomier small large) call call)
    (steps : Nat) (f : Function) (receiver : Value) (args : List Value) :
    Run.Tolerant small large (f.execute call steps receiver args) := by
  unfold Function.execute
  split
  · exact treeLaws.fail _
  · split
    · exact treeLaws.fail _
    · exact runMachine h hcall steps f _ receiver args

theorem Run.Tolerant.callWithin (h : small.Within large) (steps : Nat) :
    Caller.Lockstep Stop.IsExhaustion (RunState.Roomier small large)
      (Function.callWithin steps) (Function.callWithin steps) := by
  induction steps with
  | zero => exact fun f receiver args st st' hst ↦ Follows.of_error hst
  | succ steps ih =>
    intro f receiver args
    unfold Function.callWithin
    split
    · exact native _ receiver args
    · exact (callLaws h).insideCall (treeLaws.evaluateFunction ih _ _ _ _ _ _)
    · exact (callLaws h).insideCall (execute h ih _ _ _ _)

/-- Compiling does not know the limits, so that fresh states give the same code. -/
theorem follows_runCompiled (h : small.Within large) (steps : Nat) (script : Script)
    (level : Option Level) :
    Follows Stop.IsExhaustion (RunState.Roomier small large)
      (script.runCompiled steps (.new small level))
      (script.runCompiled steps (.new large level)) := by
  have hpool : (RunState.new large level).toPool = (RunState.new small level).toPool := rfl
  unfold Script.runCompiled
  simp only [bind, EStateM.bind, Run.onPool, hpool]
  cases script.compile (RunState.new small level).toPool with
  | ok main pool =>
    simp only
    exact Run.Tolerant.callWithin h steps main _ _ _ _ ⟨rfl, pool.log, rfl⟩
  | error failure pool => exact Follows.of_error ⟨rfl, pool.log, rfl⟩

theorem follows_runOn (h : small.Within large) (engine : Engine) (steps : Nat) (script : Script)
    (level : Option Level) :
    Follows Stop.IsExhaustion (RunState.Roomier small large)
      (script.runOn engine steps (.new small level))
      (script.runOn engine steps (.new large level)) := by
  cases engine with
  | machine => exact follows_runCompiled h steps script level
  | tree =>
    have hscript := Run.Tolerant.treeLaws.evaluateScript (Run.Tolerant.callLaws h)
      (Run.Tolerant.callWithin h steps) script
    exact hscript _ _ ⟨rfl, { level }, rfl⟩

end Engines

/-! ## Answers -/

/-- What a run comes to: a value or a stop, and the state that it leaves. -/
abbrev Outcome := EStateM.Result Stop RunState Value

namespace Outcome

/-- The run ended because a resource ran out. -/
def IsExhausted : Outcome → Prop
  | .ok _ _ => False
  | .error stop _ => stop.IsExhaustion

/-- Two runs gave the same value, in equal records and globals, or stopped alike, and printed the
same text. -/
def SameAnswer : Outcome → Outcome → Prop
  | .ok value st, .ok value' st' =>
    value = value' ∧ st.records = st'.records ∧ st.globals = st'.globals ∧ st.output = st'.output
  | .error stop st, .error stop' st' => stop = stop' ∧ st.output = st'.output
  | _, _ => False

end Outcome

/-- A run that no limit has ended gives the same answer under all limits that allow at least as
much, on each of the engines and in every number of steps. -/
theorem sameAnswer_of_within {small large : Config} (h : small.Within large) (engine : Engine)
    (steps : Nat) (script : Script) (level : Option Level)
    (hroom : ¬ Outcome.IsExhausted (script.runOn engine steps (.new small level))) :
    Outcome.SameAnswer (script.runOn engine steps (.new small level))
      (script.runOn engine steps (.new large level)) := by
  have hfollows := follows_runOn h engine steps script level
  cases hsmall : script.runOn engine steps (.new small level) with
  | ok value st =>
    rw [hsmall] at hfollows
    obtain ⟨_, hlarge, -, log, rfl⟩ := hfollows
    rw [hlarge]
    exact ⟨rfl, rfl, rfl, rfl⟩
  | error stop st =>
    rw [hsmall] at hfollows hroom
    rcases hfollows with hexhausted | ⟨_, hlarge, -, log, rfl⟩
    · exact absurd hexhausted hroom
    · rw [hlarge]
      exact ⟨rfl, rfl⟩

/-- A program whose one object takes three cells of the heap. -/
def oneObject : Script :=
  .ofList [.declare "o" (.objectOf [("x", .int 7)]), .returning (.get (.read "o") "x")]

/-- The integer that a run gives. -/
def Outcome.int? : Outcome → Option Int32
  | .ok (.int n) _ => some n
  | _ => none

/-- Three cells are just enough, and a heap that grows from one cell gives the same answer. -/
theorem oneObject_sameAnswer :
    Config.Within ⟨16, 3, .abort⟩ ⟨17, 4, .grow⟩ ∧
      ¬ Outcome.IsExhausted (oneObject.runOn .machine 40 (.new ⟨16, 3, .abort⟩)) ∧
      Outcome.SameAnswer (oneObject.runOn .machine 40 (.new ⟨16, 3, .abort⟩))
        (oneObject.runOn .machine 40 (.new ⟨17, 4, .grow⟩)) := by
  have hwithin : Config.Within ⟨16, 3, .abort⟩ ⟨17, 4, .grow⟩ :=
    ⟨by decide, by decide, .inl rfl⟩
  have hvalue : Outcome.int? (oneObject.runOn .machine 40 (.new ⟨16, 3, .abort⟩)) = some 7 := by
    decide +kernel
  have hroom : ¬ Outcome.IsExhausted (oneObject.runOn .machine 40 (.new ⟨16, 3, .abort⟩)) := by
    cases hrun : oneObject.runOn .machine 40 (.new ⟨16, 3, .abort⟩) with
    | ok value st => exact id
    | error stop st =>
      rw [hrun] at hvalue
      simp [Outcome.int?] at hvalue
  exact ⟨hwithin, hroom, sameAnswer_of_within hwithin .machine 40 oneObject none hroom⟩

end TandemScript
