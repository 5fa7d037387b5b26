import TandemScript.Proofs.CallRules
import TandemScript.Proofs.TrackedBoundary
import TandemScript.Proofs.TrackedCode

/-!
# Machines that follow each other

A machine whose run started with a fresh dictionary, and one whose run started with a dictionary
that was filled before, take the same steps. Their stacks and heaps hold words that correspond, and
each constant that is looked up, each value that is encoded and each object that is copied out
belongs to the one of the other machine.
-/

namespace TandemScript

variable {o : Offsets} {ρ ρ' : Renaming} {α β : Type}

/-! ## Runs -/

/-- The second state of a run holds the same as the first one, among what was there before. -/
structure RunState.Tracks (o : Offsets) (ρ : Renaming) (st st' : RunState) : Prop where
  pool : st.toPool.Tracks o ρ st'.toPool
  config : st.config = st'.config
  globals : st.globals.Renamed ρ st'.globals
  records : st.records.Tracks o ρ st'.records
  output : st.output = st'.output
  heaps : st'.heapCount = st.heapCount + o.heaps
  depth : st.depth = st'.depth

namespace RunState.Tracks

variable {st st' : RunState}

theorem dict (h : st.Tracks o ρ st') : st.dict.Tracks o ρ st'.dict :=
  h.pool.dict

theorem shifts (h : st.Tracks o ρ st') : ρ.Shifts o :=
  h.dict.shifts

theorem withPool (h : st.Tracks o ρ st') (hρ : ρ.Extends ρ') {pool pool' : Pool}
    (hpool : pool.Tracks o ρ' pool') :
    RunState.Tracks o ρ' { st with toPool := pool } { st' with toPool := pool' } :=
  ⟨hpool, h.config, h.globals.mono hρ, h.records.mono hρ, h.output, h.heaps, h.depth⟩

theorem withRecords (h : st.Tracks o ρ st') {records records' : Records}
    (hrecords : records.Tracks o ρ records') :
    RunState.Tracks o ρ { st with records } { st' with records := records' } :=
  { h with records := hrecords }

theorem global (h : st.Tracks o ρ st') (name : String) :
    (st.global name).Renamed ρ (st'.global name) :=
  Option.Rel.getD (h.globals name) (.basic trivial)

end RunState.Tracks

namespace Run

theorem onDict_lifts (x : EStateM Failure Dictionary α) :
    Lifts RunState.dictOf (fun st dict ↦ { st with dict }) Stop.failed x (onDict x) := by
  intro st
  rw [onDict_apply]
  cases x st.dict <;> rfl

theorem onPool_lifts (x : Compile α) :
    Lifts RunState.toPool (fun st pool ↦ { st with toPool := pool }) Stop.failed x
      (onPool x) := by
  intro st
  unfold onPool
  cases x st.toPool <;> rfl

theorem onDict_alongside {R : Renaming → α → β → Prop} {x : EStateM Failure Dictionary α}
    {y : EStateM Failure Dictionary β} (h : Alongside id (Dictionary.Tracks o) ρ R x y) :
    Alongside RunState.dictOf (RunState.Tracks o) ρ R (onDict x) (onDict y) := by
  intro st st' htracks
  have hdict : AlongsideAt id (Dictionary.Tracks o) ρ R x y st.dictOf st'.dictOf :=
    h _ _ htracks.dict
  refine hdict.lift (onDict_lifts x _) (onDict_lifts y _) (fun _ ↦ rfl) ?_
  intro ρ' dict dict' hρ hdict
  exact htracks.withPool hρ ⟨hdict, htracks.pool.nextId, htracks.pool.builtins⟩

theorem onPool_alongside {R : Renaming → α → β → Prop} {x : Compile α} {y : Compile β}
    (h : Alongside Pool.dict (Pool.Tracks o) ρ R x y) :
    Alongside RunState.dictOf (RunState.Tracks o) ρ R (onPool x) (onPool y) := by
  intro st st' htracks
  exact (h _ _ htracks.pool).lift (onPool_lifts x _) (onPool_lifts y _) (fun _ ↦ rfl)
    fun _ _ _ hρ hpool ↦ htracks.withPool hρ hpool

/-- A field is read alike on both sides. -/
theorem readField_alike {st st' : RunState} (h : st.Tracks o ρ st') {receiver receiver' : Value}
    (hreceiver : receiver.Renamed ρ receiver') (name : String) :
    Except.Alike (Value.Renamed ρ) (st.readField receiver name) (st'.readField receiver' name) := by
  have hnotA := h.records.notA_eq h.shifts hreceiver "object"
  cases hreceiver with
  | basic hbasic =>
    cases receiver with
    | global => exact .ok (h.global name)
    | function _ | shape _ _ | record _ => exact hbasic.elim
    | _ => exact .of_eq hnotA
  | function _ | shape _ _ => exact .of_eq hnotA
  | record hid =>
    exact .ok (Option.Rel.getD (h.records.field? h.shifts hid name) (.basic trivial))

theorem setGlobal_parallel (name : String) {value value' : Value}
    (hvalue : value.Renamed ρ value') :
    Parallel (RunState.Tracks o ρ) (fun _ _ ↦ True) (setGlobal name value)
      (setGlobal name value') :=
  .modify fun _ _ h ↦ { h with globals := h.globals.set name hvalue }

theorem writeField_parallel {receiver receiver' : Value} (hreceiver : receiver.Renamed ρ receiver')
    (name : String) {value value' : Value} (hvalue : value.Renamed ρ value') :
    Parallel (RunState.Tracks o ρ) (fun _ _ ↦ True) (writeField receiver name value)
      (writeField receiver' name value') := by
  intro st st' h
  have hnotA := h.records.notA_eq h.shifts hreceiver "object"
  cases hreceiver with
  | basic hbasic =>
    cases receiver with
    | global => exact ⟨trivial, { h with globals := h.globals.set name hvalue }⟩
    | function _ | shape _ _ | record _ => exact hbasic.elim
    | _ => exact ⟨congrArg Stop.failed hnotA, h⟩
  | function _ | shape _ _ => exact ⟨congrArg Stop.failed hnotA, h⟩
  | @record id id' hid =>
    have hslot : ((st.records.get? id).bind fun record ↦ record.shape.slot? name) =
        (st'.records.get? id').bind fun record ↦ record.shape.slot? name := by
      have hrecord := h.records.get? h.shifts hid
      generalize st.records.get? id = a, st'.records.get? id' = b at hrecord
      cases hrecord with
      | some hrecord => exact congrArg (Shape.slot? · name) hrecord.shape
      | none => rfl
    rw [writeField_record, writeField_record, hslot]
    split
    · exact ⟨rfl, h⟩
    · exact ⟨trivial, h.withRecords (h.records.setSlot h.shifts hid _ hvalue)⟩

/-- A built-in function does the same on both sides. -/
theorem builtin_parallel (op : Builtin) (receiver receiver' : Value) {args args' : List Value}
    (hargs : List.Forall₂ (Value.Renamed ρ) args args') :
    Parallel (RunState.Tracks o ρ) (Value.Renamed ρ) (Native.call (.builtin op) receiver args)
      (Native.call (.builtin op) receiver' args') := by
  intro st st' h
  rw [Native.call_builtin, Native.call_builtin, ← h.records.builtin_eq h.shifts op hargs]
  cases hcall : op.call st.records args with
  | mk result output =>
    cases result with
    | error failure => exact ⟨rfl, h⟩
    | ok value =>
      refine ⟨?_, { h with output := congrArg (· ++ output) h.output }⟩
      rcases Builtin.call_ok hcall with rfl | ⟨n, rfl⟩ <;> exact .basic trivial

end Run

/-! ## Machines -/

/-- The second machine is where the first one is, and holds words that correspond. -/
structure Machine.Tracks (o : Offsets) (ρ : Renaming) (m m' : Machine) : Prop where
  run : m.run.Tracks o ρ m'.run
  stack : Array.Corresponds (Word.Renamed ρ) m.stack m'.stack
  heap : m.heap.Renamed ρ m'.heap
  pc : m.pc = m'.pc
  bp : m.bp = m'.bp
  function : m.function.Renamed ρ m'.function
  code : m.code.Renamed ρ m'.code

namespace Machine.Tracks

variable {m m' : Machine}

theorem withRun (h : m.Tracks o ρ m') (hρ : ρ.Extends ρ') {st st' : RunState}
    (hrun : st.Tracks o ρ' st') :
    Machine.Tracks o ρ' { m with run := st } { m' with run := st' } :=
  ⟨hrun, h.stack.mono fun _ _ h ↦ h.mono hρ, h.heap.mono hρ, h.pc, h.bp, h.function.mono hρ,
    h.code.mono hρ⟩

theorem withStack (h : m.Tracks o ρ m') {stack stack' : Array Word}
    (hstack : Array.Corresponds (Word.Renamed ρ) stack stack') :
    Machine.Tracks o ρ { m with stack } { m' with stack := stack' } :=
  { h with stack := hstack }

theorem withHeap (h : m.Tracks o ρ m') {heap heap' : Heap} (hheap : heap.Renamed ρ heap') :
    Machine.Tracks o ρ { m with heap } { m' with heap := heap' } :=
  { h with heap := hheap }

theorem stackLimit_eq (h : m.Tracks o ρ m') : m.stackLimit = m'.stackLimit := by
  unfold Machine.stackLimit
  rw [h.run.config]

theorem stackExhausted_eq (h : m.Tracks o ρ m') : m.stackExhausted = m'.stackExhausted := by
  unfold Machine.stackExhausted
  rw [h.stackLimit_eq]

theorem heapExhausted_eq (h : m.Tracks o ρ m') : m.heapExhausted = m'.heapExhausted := by
  unfold Machine.heapExhausted
  rw [h.heap.capacity]

theorem linkStart_eq (h : m.Tracks o ρ m') : m.linkStart = m'.linkStart := by
  unfold Machine.linkStart
  rw [h.bp, h.code.slots_eq]

theorem cell_alike (h : m.Tracks o ρ m') (index : Nat) :
    Except.Alike (Word.Renamed ρ) (m.cell index) (m'.cell index) := by
  have hcell := h.stack index
  unfold Machine.cell
  generalize m.stack[index]? = a, m'.stack[index]? = b at hcell
  cases hcell with
  | some hword => exact .ok hword
  | none => exact .error _

theorem slotCell_eq (h : m.Tracks o ρ m') (slot : UInt32) : m.slotCell slot = m'.slotCell slot := by
  unfold Machine.slotCell
  rw [h.code.slots_eq, h.bp]

theorem savedNumber_alike (h : m.Tracks o ρ m') (index : Nat) :
    Except.Alike Eq (m.savedNumber index) (m'.savedNumber index) := by
  refine .bind (h.cell_alike index) fun word word' hword ↦ ?_
  rw [hword.asSmall?_eq]
  exact .refl (fun _ ↦ rfl) _

end Machine.Tracks

namespace Exec

theorem onRun_lifts (x : Run α) :
    Lifts Machine.run (fun m st ↦ { m with run := st }) id x (onRun x) := by
  intro m
  rw [onRun_apply]
  cases x m.run <;> rfl

theorem onRun_alongside {R : Renaming → α → β → Prop} {x : Run α} {y : Run β}
    (h : Alongside RunState.dictOf (RunState.Tracks o) ρ R x y) :
    Alongside Machine.dictOf (Machine.Tracks o) ρ R (onRun x) (onRun y) := by
  intro m m' htracks
  exact (h _ _ htracks.run).lift (onRun_lifts x _) (onRun_lifts y _) (fun _ ↦ rfl)
    fun _ _ _ hρ hrun ↦ htracks.withRun hρ hrun

theorem onRun_parallel {R : α → β → Prop} {x : Run α} {y : Run β}
    (h : Parallel (RunState.Tracks o ρ) R x y) :
    Parallel (Machine.Tracks o ρ) R (onRun x) (onRun y) := by
  intro m m' htracks
  exact (h _ _ htracks.run).lift (onRun_lifts x _) (onRun_lifts y _)
    fun _ _ hrun ↦ htracks.withRun (.refl ρ) hrun

theorem fail_parallel (failure : Failure) (R : α → β → Prop) :
    Parallel (Machine.Tracks o ρ) R (fail failure) (fail failure) :=
  fun _ _ h ↦ ⟨rfl, h⟩

theorem read_parallel {R : α → β → Prop} {f : Machine → α} {g : Machine → β}
    (h : ∀ m m', m.Tracks o ρ m' → R (f m) (g m')) :
    Parallel (Machine.Tracks o ρ) R (read f) (read g) :=
  fun m m' htracks ↦ ⟨h m m' htracks, htracks⟩

theorem query_parallel {R : α → β → Prop} {f : Machine → Except Failure α}
    {g : Machine → Except Failure β} (h : ∀ m m', m.Tracks o ρ m' → Except.Alike R (f m) (g m')) :
    Parallel (Machine.Tracks o ρ) R (query f) (query g) := by
  intro m m' htracks
  have hquery := h m m' htracks
  unfold query
  generalize f m = a, g m' = b at hquery
  cases hquery with
  | ok hR => exact ⟨hR, htracks⟩
  | error e => exact ⟨rfl, htracks⟩

theorem report_parallel (level level' : Level) (event event' : Machine → Event) :
    Parallel (Machine.Tracks o ρ) (fun _ _ ↦ True) (report level event) (report level' event') := by
  intro m m' htracks
  obtain ⟨log, h⟩ := report_eq level event m
  obtain ⟨log', h'⟩ := report_eq level' event' m'
  rw [h, h']
  exact ⟨trivial, { htracks with run := { htracks.run with pool := { htracks.run.pool with } } }⟩

theorem typeError_parallel (expected : String) {value value' : Value}
    (hvalue : value.Renamed ρ value') (R : α → β → Prop) :
    Parallel (Machine.Tracks o ρ) R (typeError expected value) (typeError expected value') :=
  fun _ _ h ↦ ⟨congrArg Stop.failed (h.run.records.notA_eq h.run.shifts hvalue expected), h⟩

/-! ### The stack -/

theorem push_parallel {word word' : Word} (hword : word.Renamed ρ word') :
    Parallel (Machine.Tracks o ρ) (fun _ _ ↦ True) (push word) (push word') := by
  intro m m' h
  unfold push
  rw [h.stackLimit_eq, h.stack.size_eq, h.stackExhausted_eq]
  split
  · exact ⟨rfl, h⟩
  · exact ⟨trivial, h.withStack (h.stack.push hword)⟩

theorem pop_parallel : Parallel (Machine.Tracks o ρ) (Word.Renamed ρ) pop pop := by
  intro m m' h
  have hback := h.stack.back?
  unfold pop
  generalize m.stack.back? = a, m'.stack.back? = b at hback
  cases hback with
  | some hword => exact ⟨hword, h.withStack h.stack.pop⟩
  | none => exact ⟨rfl, h⟩

theorem top_parallel : Parallel (Machine.Tracks o ρ) (Word.Renamed ρ) top top := by
  refine query_parallel fun m m' h ↦ ?_
  have hback := h.stack.back?
  generalize m.stack.back? = a, m'.stack.back? = b at hback
  cases hback with
  | some hword => exact .ok hword
  | none => exact .error _

theorem cell_parallel (index : Nat) :
    Parallel (Machine.Tracks o ρ) (Word.Renamed ρ) (cell index) (cell index) :=
  query_parallel fun _ _ h ↦ h.cell_alike index

theorem setCell_parallel (index : Nat) {word word' : Word} (hword : word.Renamed ρ word') :
    Parallel (Machine.Tracks o ρ) (fun _ _ ↦ True) (setCell index word) (setCell index word') := by
  intro m m' h
  unfold setCell
  rw [h.stack.size_eq]
  split
  · exact ⟨trivial, h.withStack (h.stack.set index hword)⟩
  · exact ⟨rfl, h⟩

theorem slot_parallel (slot : UInt32) :
    Parallel (Machine.Tracks o ρ) Eq (query fun m ↦ m.slotCell slot)
      (query fun m ↦ m.slotCell slot) := by
  refine query_parallel fun m m' h ↦ ?_
  rw [h.slotCell_eq]
  exact .refl (fun _ ↦ rfl) _

theorem truncate_parallel (count : Nat) :
    Parallel (Machine.Tracks o ρ) (fun _ _ ↦ True) (truncate count) (truncate count) :=
  .modify fun _ _ h ↦ h.withStack (h.stack.shrink count)

theorem lastCells_parallel (count : Nat) (missing : Inconsistency) :
    Parallel (Machine.Tracks o ρ) (Array.Corresponds (Word.Renamed ρ)) (lastCells count missing)
      (lastCells count missing) := by
  refine query_parallel fun m m' h ↦ ?_
  rw [h.stack.size_eq]
  split
  · exact .error _
  · exact .ok (h.stack.extract _ _)

/-! ### Values and words -/

theorem decode_parallel {word word' : Word} (hword : word.Renamed ρ word') :
    Parallel (Machine.Tracks o ρ) (Value.Renamed ρ) (decode word) (decode word') := by
  intro m m' h
  rw [decode_eq, decode_eq]
  have hdecode := TandemScript.decode_parallel h.run.dict h.heap hword _ _ h.run.records
  rcases hdecode.cases with ⟨value, value', records, records', hx, hy, hvalue, hrecords⟩ |
    ⟨failure, records, records', hx, hy, hrecords⟩
  · rw [hx, hy]
    exact ⟨hvalue, h.withRun (.refl ρ) (h.run.withRecords hrecords)⟩
  · rw [hx, hy]
    exact ⟨rfl, h.withRun (.refl ρ) (h.run.withRecords hrecords)⟩

theorem encode_alongside {value value' : Value} (hvalue : value.Renamed ρ value') :
    Alongside Machine.dictOf (Machine.Tracks o) ρ Word.Renamed (encode value) (encode value') := by
  intro m m' h
  exact onRun_alongside (Run.onDict_alongside
    (TandemScript.encode_alongside h.run.shifts h.run.records h.heap hvalue)) m m' h

theorem decodeCells_parallel (index count : Nat) :
    Parallel (Machine.Tracks o ρ) (List.Forall₂ (Value.Renamed ρ)) (decodeCells index count)
      (decodeCells index count) := by
  induction count generalizing index with
  | zero => exact .pure .nil
  | succ count ih =>
    refine .bind (cell_parallel index) fun word word' hword ↦ ?_
    refine .bind (decode_parallel hword) fun value value' hvalue ↦ ?_
    exact .bind (ih (index + 1)) fun _ _ hvalues ↦ .pure (.cons hvalue hvalues)

theorem name_parallel {word word' : Word} (hword : word.Renamed ρ word') :
    Parallel (Machine.Tracks o ρ) Eq (name word) (name word') :=
  query_parallel fun _ _ h ↦ h.run.dict.renamed.string_alike hword

/-! ### Calls -/

theorem completeWindow_parallel (bp slots : Nat) {savedBp savedPc function savedBp' savedPc'
    function' : Word} (hbp : savedBp.Renamed ρ savedBp') (hpc : savedPc.Renamed ρ savedPc')
    (hfunction : function.Renamed ρ function') (hundefined : ρ.entry 0 0) :
    Parallel (Machine.Tracks o ρ) (fun _ _ ↦ True)
      (completeWindow bp slots savedBp savedPc function)
      (completeWindow bp slots savedBp' savedPc' function') := by
  intro m m' h
  have hlocals := h.stack.shrink (bp + slots)
  unfold completeWindow
  simp only [h.stackLimit_eq, h.stackExhausted_eq, hlocals.size_eq]
  split
  · exact ⟨rfl, h⟩
  · exact ⟨trivial, h.withStack ((((hlocals.append
      (.replicate (.entry rfl rfl hundefined) _)).push hbp).push hpc).push hfunction)⟩

end Exec

/-- Built-in functions are called alike on both sides. -/
def Caller.Tracks (o : Offsets) (call : Caller) : Prop :=
  ∀ (ρ : Renaming) (op : Builtin) (receiver receiver' : Value) (args args' : List Value),
    List.Forall₂ (Value.Renamed ρ) args args' →
    Parallel (RunState.Tracks o ρ) (Value.Renamed ρ) (call op.function receiver args)
      (call op.function receiver' args')

namespace Exec

variable {call : Caller}

theorem callOutside_alongside (hcall : call.Tracks o) (op : Builtin) (base argc : Nat) :
    Alongside Machine.dictOf (Machine.Tracks o) ρ (fun _ _ _ ↦ True)
      (callOutside call op.function base argc) (callOutside call op.function base argc) := by
  refine .after (cell_parallel _) fun word word' hword ↦ ?_
  refine .after (decode_parallel hword) fun receiver receiver' _ ↦ ?_
  refine .after (decodeCells_parallel base argc) fun args args' hargs ↦ ?_
  refine .after (report_parallel _ _ _ _) fun _ _ _ ↦ ?_
  refine .after (onRun_parallel (hcall ρ op receiver receiver' args args' hargs))
    fun value value' hvalue ↦ ?_
  refine .bind (encode_alongside hvalue)
    (fun _ ↦ .bind (.modify fun _ ↦ rfl) fun _ ↦ (push_moves _).later.grows)
    fun ρ' result result' _ hresult ↦ ?_
  exact .of_parallel (.bind (truncate_parallel _) fun _ _ _ ↦ push_parallel hresult)

theorem callInside_alongside (hundefined : ρ.entry 0 0) {callee callee' : Function}
    {code code' : Code} (hcallee : callee.Renamed ρ callee') (hcode : code.Renamed ρ code')
    (base argc : Nat) :
    Alongside Machine.dictOf (Machine.Tracks o) ρ (fun _ _ _ ↦ True)
      (callInside callee code base argc) (callInside callee' code' base argc) := by
  unfold callInside
  rw [hcode.arity_eq, hcallee.name_eq]
  split
  · exact .of_parallel (fail_parallel _ _)
  · refine .after (R := Eq) (read_parallel fun _ _ h ↦ h.bp) fun bp _ hbp ↦ ?_
    refine .after (R := Eq) (read_parallel fun _ _ h ↦ h.pc) fun pc _ hpc ↦ ?_
    subst hbp hpc
    refine .after (read_parallel fun _ _ h ↦ h.function) fun caller caller' hcaller ↦ ?_
    refine .bind (onRun_alongside (Run.onDict_alongside
      (Dictionary.intern_alongside (.function hcaller)))) (fun _ ↦ ?_)
      fun ρ' word word' hρ hword ↦ ?_
    · refine .bind (completeWindow_moves _ _ _ _ _).later.grows fun _ ↦ ?_
      exact .bind (.modify fun _ ↦ rfl) fun _ ↦ (report_moves _ _).later.grows
    · rw [hcode.slots_eq]
      refine .of_parallel (.bind (completeWindow_parallel _ _ (Word.renamed_small ρ' bp)
        (Word.renamed_small ρ' pc) hword (hρ.entry _ _ hundefined)) fun _ _ _ ↦ ?_)
      refine .bind (.modify fun _ _ h ↦ ?_) fun _ _ _ ↦ report_parallel _ _ _ _
      exact { h with
        bp := rfl, pc := rfl, function := hcallee.mono hρ, code := hcode.mono hρ }

theorem callFunction_alongside (hcall : call.Tracks o)
    (hundefined : ρ.entry 0 0) (argc : Nat) :
    Alongside Machine.dictOf (Machine.Tracks o) ρ (fun _ _ _ ↦ True) (callFunction call argc)
      (callFunction call argc) := by
  have hbase : Parallel (Machine.Tracks o ρ) Eq
      (query fun m ↦ if m.stack.size < argc + 2 then .error (.inconsistent .windowUnderflow)
        else .ok (m.stack.size - argc))
      (query fun m ↦ if m.stack.size < argc + 2 then .error (.inconsistent .windowUnderflow)
        else .ok (m.stack.size - argc)) := by
    refine query_parallel fun m m' h ↦ ?_
    rw [h.stack.size_eq]
    exact .refl (fun _ ↦ rfl) _
  refine .after hbase fun base _ hsame ↦ ?_
  subst hsame
  refine .after (cell_parallel _) fun word word' hword ↦ ?_
  refine .after (decode_parallel hword) fun value value' hvalue ↦ ?_
  cases hvalue with
  | function hf =>
    cases hf with
    | builtin op => exact callOutside_alongside hcall op base argc
    | compiled hid hcode =>
      exact callInside_alongside hundefined (.compiled hid hcode) hcode base argc
  | basic hbasic =>
    cases value with
    | function _ => exact hbasic.elim
    | _ => exact .of_parallel (typeError_parallel _ (.basic hbasic) _)
  | shape layout hid => exact .of_parallel (typeError_parallel _ (.shape layout hid) _)
  | record hid => exact .of_parallel (typeError_parallel _ (.record hid) _)

theorem returnFrom_parallel :
    Parallel (Machine.Tracks o ρ) (Option.Rel (Word.Renamed ρ)) returnFrom returnFrom := by
  have hsaved (offset : Nat) : Parallel (Machine.Tracks o ρ) Eq
      (query fun m ↦ m.savedNumber (m.linkStart + offset))
      (query fun m ↦ m.savedNumber (m.linkStart + offset)) := by
    refine query_parallel fun m m' h ↦ ?_
    rw [h.linkStart_eq]
    exact h.savedNumber_alike _
  have hcaller : Parallel (Machine.Tracks o ρ) (Function.Renamed ρ)
      (query fun m ↦ m.cell (m.linkStart + 2) >>= m.run.dict.function)
      (query fun m ↦ m.cell (m.linkStart + 2) >>= m.run.dict.function) := by
    refine query_parallel fun m m' h ↦ ?_
    rw [h.linkStart_eq]
    exact .bind (h.cell_alike _) fun _ _ hword ↦ h.run.dict.renamed.function_alike hword
  refine .bind pop_parallel fun result result' hresult ↦ ?_
  refine .bind (hsaved 1) fun savedPc _ hpc ↦ ?_
  subst hpc
  split
  · exact .pure (.some hresult)
  · refine .bind (hsaved 0) fun savedBp _ hbp ↦ ?_
    subst hbp
    refine .bind hcaller fun caller caller' hcaller ↦ ?_
    cases hcaller with
    | builtin op => exact fail_parallel _ _
    | compiled hid hcode =>
      refine .bind (.modify fun m m' h ↦ ?_) fun _ _ _ ↦ ?_
      · refine ⟨h.run, ?_, h.heap, rfl, rfl, .compiled hid hcode, hcode⟩
        simp only [h.bp]
        split
        · exact h.stack
        · exact h.stack.shrink _
      · refine .bind (push_parallel hresult) fun _ _ _ ↦ ?_
        exact .bind (report_parallel _ _ _ _) fun _ _ _ ↦ .pure .none

/-! ### Objects -/

theorem makeRoom_parallel (fieldCount : Nat) :
    Parallel (Machine.Tracks o ρ) (fun _ _ ↦ True) (makeRoom fieldCount) (makeRoom fieldCount) := by
  refine .bind (report_parallel _ _ _ _) fun _ _ _ ↦ ?_
  refine .bind (report_parallel _ _ _ _) fun _ _ _ m m' h ↦ ?_
  have hlarge := h.heap.enlarge fieldCount
  have htracks := h.withHeap hlarge
  simp only [h.run.config, h.heapExhausted_eq, htracks.heapExhausted_eq, hlarge.fits_eq]
  split
  · exact ⟨rfl, h⟩
  · split
    · exact report_parallel _ _ _ _ _ _ htracks
    · exact ⟨rfl, htracks⟩

theorem alloc_parallel {shape shape' : Word} (hshape : shape.Renamed ρ shape')
    {fields fields' : Array Word} (hfields : Array.Corresponds (Word.Renamed ρ) fields fields') :
    Parallel (Machine.Tracks o ρ) (Word.Renamed ρ) (alloc shape fields) (alloc shape' fields') := by
  intro m m' h
  have halloc := h.heap.alloc?_rel hshape hfields
  unfold alloc
  rw [h.heapExhausted_eq]
  generalize m.heap.alloc? shape fields = a, m'.heap.alloc? shape' fields' = b at halloc
  cases halloc with
  | some hfound => exact ⟨hfound.1, h.withHeap hfound.2⟩
  | none => exact ⟨rfl, h⟩

theorem place_parallel {shape shape' : Word} (hshape : shape.Renamed ρ shape')
    {fields fields' : Array Word} (hfields : Array.Corresponds (Word.Renamed ρ) fields fields') :
    Parallel (Machine.Tracks o ρ) (Word.Renamed ρ) (place shape fields) (place shape' fields') := by
  unfold place
  rw [hfields.size_eq]
  refine .bind (R := Eq) (read_parallel fun _ _ h ↦ h.heap.fits_eq _) fun fits _ hsame ↦ ?_
  subst hsame
  cases fits with
  | true => exact alloc_parallel hshape hfields
  | false => exact .bind (makeRoom_parallel _) fun _ _ _ ↦ alloc_parallel hshape hfields

theorem makeObject_parallel {shape shape' : Word} (hshape : shape.Renamed ρ shape') :
    Parallel (Machine.Tracks o ρ) (fun _ _ ↦ True) (makeObject shape) (makeObject shape') := by
  refine .bind (query_parallel fun _ _ h ↦ h.run.dict.renamed.shape_alike hshape)
    fun layout _ hsame ↦ ?_
  subst hsame
  refine .bind (lastCells_parallel _ _) fun fields fields' hfields ↦ ?_
  refine .bind (place_parallel hshape hfields) fun reference reference' hreference ↦ ?_
  refine .bind (.modify fun m m' h ↦ ?_) fun _ _ _ ↦ push_parallel hreference
  rw [h.stack.size_eq]
  exact h.withStack (h.stack.shrink _)

theorem layoutOf_parallel (hundefined : ρ.entry 0 0) (index : Nat) :
    Parallel (Machine.Tracks o ρ) Eq (layoutOf index) (layoutOf index) :=
  query_parallel fun _ _ h ↦ .bind (h.heap.shapeWord_alike hundefined index) fun _ _ hword ↦
    h.run.dict.renamed.shape_alike hword

theorem readField_alongside (hundefined : ρ.entry 0 0) {receiver receiver' : Word}
    (hreceiver : receiver.Renamed ρ receiver') (name : String) :
    Alongside Machine.dictOf (Machine.Tracks o) ρ Word.Renamed (readField receiver name)
      (readField receiver' name) := by
  have hplain : Alongside Machine.dictOf (Machine.Tracks o) ρ Word.Renamed
      (do
        let receiver ← decode receiver
        let value ← query fun m ↦ m.run.readField receiver name
        encode value)
      (do
        let receiver ← decode receiver'
        let value ← query fun m ↦ m.run.readField receiver name
        encode value) := by
    refine .after (decode_parallel hreceiver) fun value value' hvalue ↦ ?_
    refine .after (query_parallel fun _ _ h ↦ Run.readField_alike h.run hvalue name) ?_
    exact fun _ _ hfound ↦ encode_alongside hfound
  unfold readField
  rcases hreceiver.view with ⟨index, index', hview, hview', -⟩ | ⟨rfl, -⟩
  · rw [hview, hview']
    exact hplain
  · split
    · refine .of_parallel (.bind (layoutOf_parallel hundefined _) fun layout _ hsame ↦ ?_)
      subst hsame
      split
      · exact query_parallel fun _ _ h ↦ h.heap.readField_alike hundefined _ _
      · exact .pure (.entry rfl rfl hundefined)
    · exact hplain

theorem writeCell_parallel (index offset : Nat) {word word' : Word}
    (hword : word.Renamed ρ word') :
    Parallel (Machine.Tracks o ρ) (fun _ _ ↦ True)
      (fun m ↦ match m.heap.writeField index offset word with
        | .ok heap => .ok () { m with heap }
        | .error failure => .error (.failed failure) m : Exec Unit)
      (fun m ↦ match m.heap.writeField index offset word' with
        | .ok heap => .ok () { m with heap }
        | .error failure => .error (.failed failure) m : Exec Unit) := by
  intro m m' h
  have hwrite := h.heap.writeField_alike index offset hword
  simp only
  generalize m.heap.writeField index offset word = a,
    m'.heap.writeField index offset word' = b at hwrite
  cases hwrite with
  | ok hheap => exact ⟨trivial, h.withHeap hheap⟩
  | error failure => exact ⟨rfl, h⟩

theorem writeField_parallel (hundefined : ρ.entry 0 0) {receiver receiver' : Word}
    (hreceiver : receiver.Renamed ρ receiver') (name : String) {word word' : Word}
    (hword : word.Renamed ρ word') :
    Parallel (Machine.Tracks o ρ) (fun _ _ ↦ True) (writeField receiver name word)
      (writeField receiver' name word') := by
  have hplain : Parallel (Machine.Tracks o ρ) (fun _ _ ↦ True)
      (do
        let receiver ← decode receiver
        let value ← decode word
        onRun (Run.writeField receiver name value))
      (do
        let receiver ← decode receiver'
        let value ← decode word'
        onRun (Run.writeField receiver name value)) := by
    refine .bind (decode_parallel hreceiver) fun target target' htarget ↦ ?_
    refine .bind (decode_parallel hword) fun value value' hvalue ↦ ?_
    exact onRun_parallel (Run.writeField_parallel htarget name hvalue)
  unfold writeField
  rcases hreceiver.view with ⟨index, index', hview, hview', -⟩ | ⟨rfl, -⟩
  · rw [hview, hview']
    exact hplain
  · split
    · refine .bind (layoutOf_parallel hundefined _) fun layout _ hsame ↦ ?_
      subst hsame
      cases layout.slot? name with
      | none => exact fail_parallel _ _
      | some offset => exact writeCell_parallel _ offset hword
    · exact hplain

/-! ### Instructions -/

/-- The results of two steps, where there are results, correspond. -/
abbrev Ends (ρ : Renaming) (result result' : Option Word) : Prop :=
  Option.Rel (Word.Renamed ρ) result result'

/-- Two instructions that correspond do the same. -/
theorem perform_alongside (hcall : call.Tracks o) (hundefined : ρ.entry 0 0) {i j : Instruction}
    (h : i.Renamed ρ j) :
    Alongside Machine.dictOf (Machine.Tracks o) ρ Ends (perform call i) (perform call j) := by
  cases h with
  | const hword => exact .of_parallel (.bind (push_parallel hword) fun _ _ _ ↦ .pure .none)
  | lookup hword =>
    refine .after (name_parallel hword) fun name _ hsame ↦ ?_
    subst hsame
    refine .after (read_parallel fun _ _ h ↦ h.run.global name) fun value value' hvalue ↦ ?_
    refine .bind (encode_alongside hvalue)
      (fun _ ↦ .bind (push_moves _).later.grows fun _ ↦ .pure _)
      fun ρ' found found' _ hfound ↦ ?_
    exact .of_parallel (.bind (push_parallel hfound) fun _ _ _ ↦ .pure .none)
  | register hword =>
    refine .of_parallel (.bind (name_parallel hword) fun name _ hsame ↦ ?_)
    subst hsame
    refine .bind pop_parallel fun found found' hfound ↦ ?_
    refine .bind (decode_parallel hfound) fun value value' hvalue ↦ ?_
    exact .bind (onRun_parallel (Run.setGlobal_parallel name hvalue)) fun _ _ _ ↦ .pure .none
  | load slot =>
    refine .of_parallel (.bind (slot_parallel slot) fun index _ hsame ↦ ?_)
    subst hsame
    refine .bind (cell_parallel index) fun word word' hword ↦ ?_
    exact .bind (push_parallel hword) fun _ _ _ ↦ .pure .none
  | store slot =>
    refine .of_parallel (.bind (slot_parallel slot) fun index _ hsame ↦ ?_)
    subst hsame
    refine .bind pop_parallel fun word word' hword ↦ ?_
    exact .bind (setCell_parallel index hword) fun _ _ _ ↦ .pure .none
  | dup =>
    refine .of_parallel (.bind top_parallel fun word word' hword ↦ ?_)
    exact .bind (push_parallel hword) fun _ _ _ ↦ .pure .none
  | pop => exact .of_parallel (.bind pop_parallel fun _ _ _ ↦ .pure .none)
  | swap =>
    refine .of_parallel (.bind pop_parallel fun first first' hfirst ↦ ?_)
    refine .bind pop_parallel fun second second' hsecond ↦ ?_
    refine .bind (.modify fun m m' h ↦ ?_) fun _ _ _ ↦ .pure .none
    exact h.withStack ((h.stack.push hfirst).push hsecond)
  | call argc =>
    exact .map (callFunction_alongside hcall hundefined _) fun _ _ _ _ _ ↦ .none
  | ret => exact .of_parallel returnFrom_parallel
  | goto target =>
    refine .of_parallel (.bind (.modify fun _ _ h ↦ ?_) fun _ _ _ ↦ .pure .none)
    exact { h with pc := rfl }
  | jumpIfFalse target =>
    refine .of_parallel (.bind pop_parallel fun word word' hword ↦ ?_)
    simp only [hword.eq_zero_iff]
    split
    · refine .bind (.modify fun _ _ h ↦ ?_) fun _ _ _ ↦ .pure .none
      exact { h with pc := rfl }
    · exact .pure .none
  | new hword => exact .of_parallel (.bind (makeObject_parallel hword) fun _ _ _ ↦ .pure .none)
  | get hword =>
    refine .after (name_parallel hword) fun name _ hsame ↦ ?_
    subst hsame
    refine .after pop_parallel fun receiver receiver' hreceiver ↦ ?_
    refine .bind (readField_alongside hundefined hreceiver name)
      (fun _ ↦ .bind (push_moves _).later.grows fun _ ↦ .pure _) fun ρ' found found' _ hfound ↦ ?_
    exact .of_parallel (.bind (push_parallel hfound) fun _ _ _ ↦ .pure .none)
  | put hword =>
    refine .of_parallel (.bind (name_parallel hword) fun name _ hsame ↦ ?_)
    subst hsame
    refine .bind pop_parallel fun value value' hvalue ↦ ?_
    refine .bind pop_parallel fun receiver receiver' hreceiver ↦ ?_
    exact .bind (writeField_parallel hundefined hreceiver name hvalue) fun _ _ _ ↦ .pure .none

end Exec

end TandemScript
