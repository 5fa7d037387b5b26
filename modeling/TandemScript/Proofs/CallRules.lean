import TandemScript.Proofs.Rules

/-!
# Rules for calls

Where a sound machine gets to with a call: outside of it, where a built-in function takes the
values of the window and gives a value back; inside it, where the window becomes that of the
callee; and back again, where the result takes the place of the whole window.
-/

namespace TandemScript

variable {p : Program} {objects : List Placed} {m : Machine} {E : Failure → Machine → Prop}
  {Q : Machine → Prop} {line : UInt32} {rest : Fragment}

/-! ## Windows -/

/-- The words stand for the values, one by one. -/
structure DecodesAll (dict : Dictionary) (heap : Heap) (objects : List Placed) (records : Records)
    (words : Array Word) (values : List Value) : Prop where
  length : values.length = words.size
  each : ∀ (index : Nat) word value, words[index]? = some word → values[index]? = some value →
    word.Decodes dict heap objects records value

/-- The callee, the receiver and the arguments at the top of a stack. -/
def window (stack : Array Word) (callee receiver : Word) (args : Array Word) : Array Word :=
  (stack.push callee).push receiver ++ args

section Window

variable (stack : Array Word) (callee receiver : Word) (args : Array Word)

theorem size_window : (window stack callee receiver args).size = stack.size + 2 + args.size := by
  simp [window]

theorem window_callee : (window stack callee receiver args)[stack.size]? = some callee := by
  unfold window
  rw [Array.getElem?_append_left (by simp only [Array.size_push]; omega),
    Array.getElem?_push_lt (by simp only [Array.size_push]; omega), Array.getElem_push_eq]

theorem window_receiver :
    (window stack callee receiver args)[stack.size + 1]? = some receiver := by
  have hsize : stack.size + 1 = (stack.push callee).size := (Array.size_push callee).symm
  unfold window
  rw [Array.getElem?_append_left (by simp only [Array.size_push]; omega), hsize,
    Array.getElem?_push_size]

theorem window_arg (index : Nat) :
    (window stack callee receiver args)[stack.size + 2 + index]? = args[index]? := by
  have hsize : ((stack.push callee).push receiver).size = stack.size + 2 := by simp
  unfold window
  rw [Array.getElem?_append_right (by omega), hsize, Nat.add_sub_cancel_left]

theorem window_eq :
    window stack callee receiver args = stack ++ (#[callee, receiver] ++ args) := by
  unfold window
  rw [← Array.append_assoc]
  rfl

theorem window_below {index : Nat} (h : index < stack.size) :
    (window stack callee receiver args)[index]? = stack[index]? := by
  rw [window_eq, Array.getElem?_append_left h]

theorem shrink_window : (window stack callee receiver args).shrink stack.size = stack := by
  rw [window_eq, Array.shrink_append_left]

end Window

namespace Exec

/-- The cells of valid words are decoded one after the other. -/
theorem decodeCells_spec (hs : m.Sound p objects) (index count : Nat)
    (hcells : index + count ≤ m.stack.size) :
    ∃ values records, decodeCells index count m =
        .ok values { m with run := { m.run with records } } ∧ m.run.records.Keeps records ∧
      values.length = count ∧ ∀ (offset : Nat) word value, m.stack[index + offset]? = some word →
        values[offset]? = some value →
          word.Decodes m.run.dict m.heap objects records value := by
  induction count generalizing index m with
  | zero => exact ⟨[], m.run.records, rfl, .refl _, rfl, by simp⟩
  | succ count ih =>
    have hword : m.stack[index]? = some m.stack[index] := Array.getElem?_eq_getElem (by omega)
    obtain ⟨value, records₁, hdecode, hkeeps₁, hvalue⟩ := decode_spec hs (hs.stack_valid hword)
    obtain ⟨values, records₂, hrest, hkeeps₂, hlength, hvalues⟩ :=
      ih (hs.withRecords hkeeps₁) (index + 1) (by change index + 1 + count ≤ m.stack.size; omega)
    refine ⟨value :: values, records₂, ?_, hkeeps₁.trans hkeeps₂, by simp [hlength], ?_⟩
    · unfold decodeCells
      rw [bind_of_ok (cell_of_getElem? hword), bind_of_ok hdecode, bind_of_ok hrest]
      rfl
    · rintro (_ | offset) word found hfound hvalue'
      · obtain rfl := Option.some.inj (hword.symm.trans hfound)
        obtain rfl := Option.some.inj hvalue'
        exact hvalue.mono hkeeps₂
      · refine hvalues offset word found ?_ hvalue'
        rw [← hfound]
        congr 1
        omega

theorem internFunction_spec (hs : m.Sound p objects) {f : Function} (hf : p.Knows f) :
    Ensures (onRun (Run.onDict (Dictionary.intern (.function f)))) m
      (fun word m' ↦ ∃ dict, m' = { m with run := { m.run with dict } } ∧
        m.run.dict.GrowsTo dict ∧ dict.value word = .ok (.function f) ∧ m'.Sound p objects)
      m.Starves := by
  have hvalid : Value.Valid p m.heap.id objects m.run.records (.function f) := hf
  have hencode : Ensures (onRun (Run.onDict (Dictionary.intern (.function f)))) m _ _ :=
    encode_spec hs hvalid
  refine hencode.mono ?_ fun _ _ h ↦ h
  rintro word m' ⟨dict, rfl, hencoded⟩
  refine ⟨dict, rfl, hencoded.grows, ?_, hs.withDict hencoded.grows hencoded.entries⟩
  cases hencoded.means with
  | plain hdenotes =>
    cases hdenotes with
    | entry hvalue _ => exact hvalue

theorem callFunction_of_decode {call : Caller} {stack : Array Word} {callee receiver : Word}
    {args : Array Word} (hstack : m.stack = window stack callee receiver args) {value : Value}
    {m' : Machine} (hdecode : decode callee m = .ok value m') :
    callFunction call args.size m = (match value with
      | .function callee =>
        match callee.code? with
        | some code => callInside callee code (stack.size + 2) args.size
        | none => callOutside call callee (stack.size + 2) args.size
      | other => typeError "function" other) m' := by
  have hbase : query (fun m ↦ if m.stack.size < args.size + 2 then
        .error (.inconsistent .windowUnderflow) else .ok (m.stack.size - args.size)) m =
      .ok (stack.size + 2) m := by
    refine query_of_ok ?_
    rw [hstack, size_window, if_neg (by omega)]
    congr 1
    omega
  have hcell : cell (stack.size + 2 - 2) m = .ok callee m :=
    cell_of_getElem? (by rw [hstack]; exact window_callee ..)
  refine (bind_of_ok hbase).trans ((bind_of_ok hcell).trans ((bind_of_ok hdecode).trans ?_))
  cases value <;> rfl

end Exec

/-- The result of a built-in function is an integer or undefined. -/
theorem Builtin.call_ok {records : Records} {op : Builtin} {args : List Value} {value : Value}
    {output : String} (h : op.call records args = (.ok value, output)) :
    value = .undefined ∨ ∃ n, value = .int n := by
  have hbinary (a b : Value) (h : applyBinary records op a b = .ok value) :
      value = .undefined ∨ ∃ n, value = .int n := by
    unfold applyBinary at h
    cases op <;> simp only at h
    case print => exact .inl (Except.ok.inj h).symm
    case eq => exact .inr ⟨_, (Except.ok.inj h).symm⟩
    case ne => exact .inr ⟨_, (Except.ok.inj h).symm⟩
    all_goals
      obtain ⟨operands, -, h⟩ := exists_of_bind_eq_ok h
      try split at h
      all_goals first
        | exact .inr ⟨_, (Except.ok.inj h).symm⟩
        | cases h
  unfold call at h
  split at h
  · exact .inl (Except.ok.inj (Prod.mk.inj h).1).symm
  · split at h
    · exact hbinary _ _ (Prod.mk.inj h).1
    · cases (Prod.mk.inj h).1

/-- A built-in function fails where an operand has the wrong type, where it divides by zero, or
where it is called with too few or too many arguments. -/
theorem Builtin.failure_of_call {records : Records} {op : Builtin} {args : List Value}
    {failure : Failure} {output : String} (h : op.call records args = (.error failure, output)) :
    (∃ expected found, failure = .notA expected records found) ∨ failure = ⟨.divisionByZero, {}⟩ ∨
      failure = ⟨.arityMismatch op.name 2 args.length, {}⟩ := by
  have hintegers (a b : Value) (h : bothIntegers records a b = .error failure) :
      ∃ expected found, failure = .notA expected records found := by
    unfold bothIntegers at h
    split at h <;> cases h <;> exact ⟨_, _, rfl⟩
  have horder (a b : Value) (h : order records a b = .error failure) :
      ∃ expected found, failure = .notA expected records found := by
    unfold order at h
    split at h <;> cases h <;> exact ⟨_, _, rfl⟩
  have hbinary (a b : Value) (h : applyBinary records op a b = .error failure) :
      (∃ expected found, failure = .notA expected records found) ∨
        failure = ⟨.divisionByZero, {}⟩ := by
    unfold applyBinary at h
    cases op <;> simp only at h
    case print | eq | ne => cases h
    all_goals
      rcases error_of_bind_eq_error h with h | ⟨operands, -, h⟩
      · first
          | exact .inl (hintegers _ _ h)
          | exact .inl (horder _ _ h)
      · try split at h
        all_goals cases h
        all_goals exact .inr rfl
  unfold call at h
  split at h
  · cases (Prod.mk.inj h).1
  · split at h
    · exact (hbinary _ _ (Prod.mk.inj h).1).imp id .inl
    · exact .inr (.inr (Except.error.inj (Prod.mk.inj h).1).symm)

/-- What a built-in function finds when a machine calls it. -/
structure Machine.Passes (m : Machine) (objects : List Placed) (receiver : Word)
    (args : Array Word) (target : Value) (values : List Value) (records : Records) : Prop where
  keeps : m.run.records.Keeps records
  target : receiver.Decodes m.run.dict m.heap objects records target
  values : DecodesAll m.run.dict m.heap objects records args values

namespace Exec

variable {stack args : Array Word} {callee receiver : Word}

/-- The receiver and the arguments of a call are read off its window. -/
theorem callOutside_apply (hs : m.Sound p objects)
    (hstack : m.stack = window stack callee receiver args) (call : Caller) (f : Function) :
    ∃ target values records log, m.Passes objects receiver args target values records ∧
      callOutside call f (stack.size + 2) args.size m = (do
        let result ← encode (← onRun (call f target values))
        truncate (stack.size + 2 - 2)
        push result) { m with run := { m.run with records, log } } := by
  have hreceiver : m.stack[stack.size + 1]? = some receiver := by
    rw [hstack]
    exact window_receiver ..
  have hsize : stack.size + 2 + args.size = m.stack.size := by
    rw [hstack, size_window]
  have hcell : cell (stack.size + 2 - 1) m = .ok receiver m := cell_of_getElem? hreceiver
  obtain ⟨target, records₁, hdecode, hkeeps₁, htarget⟩ :=
    decode_spec hs (hs.stack_valid hreceiver)
  obtain ⟨values, records, hdecodes, hkeeps₂, hlength, hvalues⟩ :=
    decodeCells_spec (hs.withRecords hkeeps₁) (stack.size + 2) args.size (Nat.le_of_eq hsize)
  obtain ⟨log, hreport⟩ := report_eq .debug (fun _ ↦ .nativeCall f.name args.size)
    { m with run := { m.run with records } }
  refine ⟨target, values, records, log,
    ⟨hkeeps₁.trans hkeeps₂, htarget.mono hkeeps₂, hlength, ?_⟩, (bind_of_ok hcell).trans
      ((bind_of_ok hdecode).trans ((bind_of_ok hdecodes).trans (bind_of_ok hreport)))⟩
  intro index word value hword hvalue
  refine hvalues index word value ?_ hvalue
  change m.stack[stack.size + 2 + index]? = _
  rw [hstack, window_arg, hword]

/-- What a built-in function comes to is worked out on the records of the machine. -/
theorem onRun_native (op : Builtin) (target : Value) (values : List Value) (m : Machine) :
    onRun (Caller.native op.function target values) m =
      match op.call m.run.records values with
      | (.ok value, output) =>
        .ok value { m with run := { m.run with output := m.run.output ++ output } }
      | (.error failure, _) => .error (.failed failure) m := by
  rw [onRun_apply]
  unfold Caller.native Builtin.function Native.call
  cases hcall : op.call m.run.records values with
  | mk result output => cases result <;> simp only [hcall]

/-- A result takes the place of the window of its call. -/
theorem leave_spec (hs : m.Sound p objects) (hstack : m.stack = window stack callee receiver args)
    {value : Value} (hvalue : value.Valid p m.heap.id objects m.run.records) :
    Ensures (do
      let result ← encode value
      truncate (stack.size + 2 - 2)
      push result) m
      (fun _ m' ↦ ∃ word dict, Encoded p m.run.dict m.heap.id m.run.records value word dict ∧
        m' = { m with stack := stack.push word, run := { m.run with dict } } ∧
        m'.Sound p objects)
      m.Starves := by
  refine (encode_spec hs hvalue).bind ?_
  rintro word _ ⟨dict, rfl, hencoded⟩
  have hs₁ := hs.withDict hencoded.grows hencoded.entries
  have hshrunk : m.stack.shrink (stack.size + 2 - 2) = stack := by
    rw [hstack]
    exact shrink_window ..
  refine Ensures.bind_ok (truncate_of_shrink hshrunk) ?_
  refine (push_spec _ word).mono ?_ fun _ _ h ↦ h
  rintro _ m' ⟨rfl, hroom⟩
  exact ⟨word, dict, hencoded, rfl,
    (hs₁.of_append (hstack.trans (window_eq ..))).push (hencoded.means.valid hvalue) hroom⟩

theorem callOutside_spec (hs : m.Sound p objects)
    (hstack : m.stack = window stack callee receiver args) (op : Builtin) :
    Ensures (callOutside Caller.native op.function (stack.size + 2) args.size) m
      (fun _ m' ↦ ∃ target values records value output word dict log,
        m.Passes objects receiver args target values records ∧
        op.call records values = (.ok value, output) ∧
        Encoded p m.run.dict m.heap.id records value word dict ∧
        m' = { m with
          stack := stack.push word
          run := { m.run with records, log, dict, output := m.run.output ++ output } } ∧
        m'.Sound p objects)
      fun stop m' ↦ m.Starves stop m' ∨ ∃ target values records failure output log,
        m.Passes objects receiver args target values records ∧
        op.call records values = (.error failure, output) ∧ stop = .failed failure ∧
        m' = { m with run := { m.run with records, log } } := by
  obtain ⟨target, values, records, log, hpasses, hcalls⟩ :=
    callOutside_apply hs hstack Caller.native op.function
  have hcalled := onRun_native op target values { m with run := { m.run with records, log } }
  rw [Ensures.congr hcalls]
  cases hcall : op.call records values with
  | mk result output =>
    simp only [hcall] at hcalled
    cases result with
    | error failure =>
      exact .of_error (bind_of_error hcalled)
        (.inr ⟨target, values, records, failure, output, log, hpasses, hcall, rfl, rfl⟩)
    | ok value =>
      have hs₁ := ((hs.withRecords hpasses.keeps).withLog log).withOutput (m.run.output ++ output)
      have hvalid : value.Valid p m.heap.id objects records := by
        rcases Builtin.call_ok hcall with rfl | ⟨n, rfl⟩ <;> trivial
      refine Ensures.bind_ok hcalled ((leave_spec hs₁ hstack hvalid).mono ?_ fun _ _ h ↦ .inl h)
      rintro _ m' ⟨word, dict, hencoded, rfl, hs'⟩
      exact ⟨target, values, records, value, output, word, dict, log, hpasses, hcall, hencoded, rfl,
        hs'⟩

end Exec

theorem Exec.perform_call {call : Caller} {argc : Nat} (h : (UInt32.ofNat argc).toNat = argc) :
    perform call (.call (.ofNat argc)) = do
      callFunction call argc
      return none := by
  have hcall : perform call (.call (.ofNat argc)) = do
      callFunction call (UInt32.ofNat argc).toNat
      return none := rfl
  rw [hcall, h]

/-- A machine has fewer arguments on its stack than a word can count. -/
theorem Machine.Sound.toNat_args (hs : m.Sound p objects) {stack args : Array Word}
    {callee receiver : Word} (hstack : m.stack = window stack callee receiver args) :
    (UInt32.ofNat args.size).toNat = args.size := by
  have hbound := hs.size_le
  have hsmall : args.size < UInt32.size := by
    rw [hstack, size_window] at hbound
    unfold indexBound at hbound
    unfold UInt32.size
    omega
  exact UInt32.toNat_ofNat_of_lt' hsmall

/-- A word that stands for a function names it. -/
theorem Word.Decodes.function {dict : Dictionary} {heap : Heap} {objects : List Placed}
    {records : Records} {word : Word} {f : Function}
    (h : word.Decodes dict heap objects records (.function f)) :
    dict.value word = .ok (.function f) := by
  obtain ⟨copies, hreads, -⟩ := h
  unfold Reads at hreads
  cases hview : word.view with
  | small n => simp [hview] at hreads
  | entry index =>
    simp only [hview] at hreads
    exact Dictionary.value_eq_ok.mpr ⟨index, hview, hreads⟩
  | reference index => simp [hview] at hreads

namespace Next

variable {stack args : Array Word} {callee receiver : Word}

theorem callBuiltin (hE : Lenient E) (hs : m.Sound p objects)
    (hcode : m.code.Contains m.pc ((.call (.ofNat args.size), line) :: rest))
    (hstack : m.stack = window stack callee receiver args) {op : Builtin}
    (hcallee : m.run.dict.value callee = .ok (.function op.function))
    (h : ∀ target values records value output word dict log m',
      m.Passes objects receiver args target values records →
      op.call records values = (.ok value, output) →
      Exec.Encoded p m.run.dict m.heap.id records value word dict →
      m' = { m with
        pc := m.pc + 2, stack := stack.push word
        run := { m.run with records, log, dict, output := m.run.output ++ output } } →
      m'.Sound p objects → Q m')
    (hfail : ∀ target values records failure output log,
      m.Passes objects receiver args target values records →
      op.call records values = (.error failure, output) →
      E (m.noted (.call (.ofNat args.size)) line failure)
        { m with pc := m.pc + 2, run := { m.run with records, log } }) : Next E Q m := by
  have hs₁ := hs.withPc (m.pc + 2)
  have hargc := hs.toNat_args hstack
  have hcall : Exec.callFunction Caller.native args.size { m with pc := m.pc + 2 } =
      Exec.callOutside Caller.native op.function (stack.size + 2) args.size
        { m with pc := m.pc + 2 } :=
    Exec.callFunction_of_decode (m := { m with pc := m.pc + 2 }) hstack
      (Exec.decode_of_value hcallee)
  have hspec : Ensures (Exec.callFunction Caller.native args.size) { m with pc := m.pc + 2 } _ _ :=
    (Ensures.congr hcall).mpr (Exec.callOutside_spec hs₁ hstack op)
  refine .after hcode ?_
  rw [Exec.perform_call hargc]
  refine Ensures.bind (hspec.mono (fun _ _ h ↦ h) ?_) ?_
  · rintro stop m' (hstarves | ⟨target, values, records, failure, output, log, hpasses, hresult,
      rfl, rfl⟩)
    · exact hstarves.fails hE rfl rfl
    · exact ⟨failure, rfl, rfl, rfl, hfail target values records failure output log
        ⟨hpasses.keeps, hpasses.target, hpasses.values⟩ hresult⟩
  · rintro _ m' ⟨target, values, records, value, output, word, dict, log, hpasses, hresult,
      hencoded, rfl, hs'⟩
    exact .pure ⟨rfl, h target values records value output word dict log _
      ⟨hpasses.keeps, hpasses.target, hpasses.values⟩ hresult hencoded rfl hs'⟩

/-- A callee that is no function. -/
theorem callOther (hs : m.Sound p objects)
    (hcode : m.code.Contains m.pc ((.call (.ofNat args.size), line) :: rest))
    (hstack : m.stack = window stack callee receiver args)
    (hcallee : ∀ f, m.run.dict.value callee ≠ .ok (.function f))
    (hfail : ∀ value records, m.run.records.Keeps records →
      callee.Decodes m.run.dict m.heap objects records value →
      E (m.noted (.call (.ofNat args.size)) line (.notA "function" records value))
        { m with pc := m.pc + 2, run := { m.run with records } }) : Next E Q m := by
  have hs₁ := hs.withPc (m.pc + 2)
  have hargc := hs.toNat_args hstack
  have hword : m.stack[stack.size]? = some callee := by
    rw [hstack]
    exact window_callee ..
  obtain ⟨value, records, hdecode, hkeeps, hdecodes⟩ :=
    Exec.decode_spec hs₁ (hs.stack_valid hword)
  have hfunction (f : Function) : value ≠ .function f := by
    rintro rfl
    exact hcallee f hdecodes.function
  have hcall : Exec.callFunction Caller.native args.size { m with pc := m.pc + 2 } =
      .error (.failed (.notA "function" records value))
        { m with pc := m.pc + 2, run := { m.run with records } } := by
    rw [Exec.callFunction_of_decode (m := { m with pc := m.pc + 2 }) hstack hdecode]
    cases value with
    | function f => exact absurd rfl (hfunction f)
    | _ => rfl
  refine .after hcode ?_
  rw [Exec.perform_call hargc]
  exact .of_error (bind_of_error hcall) ⟨_, rfl, rfl, rfl, hfail value records hkeeps hdecodes⟩

end Next

/-! ## Windows of compiled functions -/

/-- The stack with a window that is complete: behind the parameters come the other variables, and
then how to go back. -/
def completed (stack : Array Word) (bp slots : Nat) (savedBp savedPc function : Word) :
    Array Word :=
  (((stack ++ Array.replicate (bp + slots - stack.size) Word.undefined).push savedBp).push
    savedPc).push function

/-- A stack is cut down to another one that it starts with. -/
theorem Array.shrink_of_prefix {α : Type} {xs ys : Array α} (hsize : ys.size ≤ xs.size)
    (hsame : ∀ i, i < ys.size → xs[i]? = ys[i]?) : xs.shrink ys.size = ys := by
  apply Array.ext
  · rw [Array.size_shrink]
    omega
  · intro i hi hi'
    rw [Array.getElem_shrink]
    have hget := hsame i hi'
    rw [Array.getElem?_eq_getElem hi', Array.getElem?_eq_getElem (by omega)] at hget
    exact Option.some.inj hget

theorem Array.shrink_of_size_le {α : Type} {xs : Array α} {count : Nat} (h : xs.size ≤ count) :
    xs.shrink count = xs := by
  apply Array.ext'
  rw [Array.toList_shrink, List.take_of_length_le (by simpa using h)]

theorem size_completed {stack : Array Word} {bp slots : Nat} (h : stack.size ≤ bp + slots)
    (savedBp savedPc function : Word) :
    (completed stack bp slots savedBp savedPc function).size = bp + slots + linkCells := by
  unfold completed linkCells
  simp only [Array.size_push, Array.size_append, Array.size_replicate]
  omega

theorem completed_below (stack : Array Word) (bp slots : Nat) (savedBp savedPc function : Word)
    {index : Nat} (hindex : index < stack.size) :
    (completed stack bp slots savedBp savedPc function)[index]? = stack[index]? := by
  unfold completed
  simp only [Array.getElem?_push, Array.size_push, Array.size_append, Array.size_replicate]
  rw [if_neg (by omega), if_neg (by omega), if_neg (by omega), Array.getElem?_append_left hindex]

section Completed

variable {stack : Array Word} {bp slots : Nat} (h : stack.size ≤ bp + slots)
  (savedBp savedPc function : Word)
include h

theorem completed_variable {index : Nat} (hle : stack.size ≤ index) (hlt : index < bp + slots) :
    (completed stack bp slots savedBp savedPc function)[index]? = some Word.undefined := by
  unfold completed
  simp only [Array.getElem?_push, Array.size_push, Array.size_append, Array.size_replicate]
  rw [if_neg (by omega), if_neg (by omega), if_neg (by omega), Array.getElem?_append_right hle,
    Array.getElem?_replicate, if_pos (by omega)]

theorem completed_savedBp :
    (completed stack bp slots savedBp savedPc function)[bp + slots]? = some savedBp := by
  unfold completed
  simp only [Array.getElem?_push, Array.size_push, Array.size_append, Array.size_replicate]
  rw [if_neg (by omega), if_neg (by omega), if_pos (by omega)]

theorem completed_savedPc :
    (completed stack bp slots savedBp savedPc function)[bp + slots + 1]? = some savedPc := by
  unfold completed
  simp only [Array.getElem?_push, Array.size_push, Array.size_append, Array.size_replicate]
  rw [if_neg (by omega), if_pos (by omega)]

theorem completed_function :
    (completed stack bp slots savedBp savedPc function)[bp + slots + 2]? = some function := by
  unfold completed
  simp only [Array.getElem?_push, Array.size_push, Array.size_append, Array.size_replicate]
  rw [if_pos (by omega)]

end Completed

theorem Exec.completeWindow_spec (hs : m.Sound p objects) {bp slots : Nat}
    {savedBp savedPc function : Word} (hsize : m.stack.size ≤ bp + slots)
    (hbp : savedBp.Valid m.run.dict objects) (hpc : savedPc.Valid m.run.dict objects)
    (hfunction : function.Valid m.run.dict objects) :
    Ensures (completeWindow bp slots savedBp savedPc function) m
      (fun _ m' ↦ m' = { m with stack := completed m.stack bp slots savedBp savedPc function } ∧
        m'.Sound p objects)
      m.Starves := by
  unfold Ensures completeWindow
  simp only
  by_cases hfull : m.stackLimit < bp + slots + linkCells
  · rw [if_pos hfull]
    exact ⟨_, rfl, rfl, rfl, .inl ⟨_, _, rfl⟩⟩
  · rw [if_neg hfull, Array.shrink_of_size_le hsize]
    refine ⟨rfl, hs.withStack ?_ ?_⟩
    · intro word hword
      rcases Array.mem_push.mp hword with hword | rfl
      · rcases Array.mem_push.mp hword with hword | rfl
        · rcases Array.mem_push.mp hword with hword | rfl
          · rcases Array.mem_append.mp hword with hword | hword
            · exact hs.stack word hword
            · rw [(Array.mem_replicate.mp hword).2]
              exact .of_value hs.undefined
          · exact hbp
        · exact hpc
      · exact hfunction
    · change (completed ..).size ≤ _
      rw [size_completed hsize]
      omega

theorem Exec.callInside_spec (hs : m.Sound p objects) {stack args : Array Word}
    {callee receiver : Word} (hstack : m.stack = window stack callee receiver args) {f : Function}
    {code : Code} (hdefined : p.Defines f) (hf : f.code? = some code)
    (hslots : code.arity ≤ code.slots) (harity : code.arity = args.size + 1)
    (hbp : m.bp ≤ m.stack.size) (hpc : m.pc < codeBound) :
    Ensures (callInside f code (stack.size + 2) args.size) m
      (fun _ m' ↦ ∃ caller dict log, m.run.dict.GrowsTo dict ∧
        dict.value caller = .ok (.function m.function) ∧
        m' = { m with
          pc := 0, bp := stack.size + 1, function := f, code, run := { m.run with dict, log }
          stack := completed m.stack (stack.size + 1) code.slots (.small m.bp) (.small m.pc)
            caller } ∧
        m'.Sound p objects)
      m.Starves := by
  have hbound := hs.size_le
  have hsize : m.stack.size ≤ stack.size + 1 + code.slots := by
    rw [hstack, size_window]
    omega
  have hbpSmall : m.bp < 0x80000000 := by
    unfold indexBound at hbound
    omega
  unfold callInside
  rw [if_neg (by omega)]
  refine Ensures.bind_ok rfl (Ensures.bind_ok rfl (Ensures.bind_ok rfl ?_))
  refine Ensures.bind (internFunction_spec hs hs.defined.knows) ?_
  rintro caller _ ⟨dict, rfl, hgrows, hcaller, hs₁⟩
  refine Ensures.bind ((completeWindow_spec hs₁ hsize (.of_small hbpSmall) (.of_small hpc)
    (.of_value hcaller)).mono (fun _ _ h ↦ h) fun _ _ h ↦ h) ?_
  rintro _ _ ⟨rfl, hs₂⟩
  refine Ensures.bind_ok rfl ?_
  obtain ⟨log, hreport⟩ := report_eq .trace (fun m ↦ .called m.function.name m.stackDump)
    { m with
      pc := 0, bp := stack.size + 1, function := f, code, run := { m.run with dict }
      stack := completed m.stack (stack.size + 1) code.slots (.small m.bp) (.small m.pc) caller }
  refine .of_ok hreport ⟨caller, dict, log, hgrows, hcaller, rfl, ?_⟩
  exact { hs₂ with defined := hdefined, code := hf }

namespace Next

variable {stack args : Array Word} {callee receiver : Word}

/-- A function with the right number of parameters starts in a window of its own. -/
theorem callCompiled (hE : Lenient E) (hs : m.Sound p objects)
    (hcode : m.code.Contains m.pc ((.call (.ofNat args.size), line) :: rest))
    (hstack : m.stack = window stack callee receiver args) {f : Function} {code : Code}
    (hcallee : m.run.dict.value callee = .ok (.function f)) (hf : f.code? = some code)
    (hslots : code.arity ≤ code.slots) (hbp : m.bp ≤ m.stack.size)
    (h : code.arity = args.size + 1 → ∀ caller dict log m', m.run.dict.GrowsTo dict →
      dict.value caller = .ok (.function m.function) →
      m' = { m with
        pc := 0, bp := stack.size + 1, function := f, code, run := { m.run with dict, log }
        stack := completed m.stack (stack.size + 1) code.slots (.small m.bp) (.small (m.pc + 2))
          caller } →
      m'.Sound p objects → Q m')
    (hfail : code.arity ≠ args.size + 1 →
      E (m.noted (.call (.ofNat args.size)) line
        ⟨.arityMismatch f.name (code.arity - 1) args.size, {}⟩) { m with pc := m.pc + 2 }) :
    Next E Q m := by
  have hargc := hs.toNat_args hstack
  have hcall : Exec.callFunction Caller.native args.size { m with pc := m.pc + 2 } =
      Exec.callInside f code (stack.size + 2) args.size { m with pc := m.pc + 2 } := by
    rw [Exec.callFunction_of_decode (m := { m with pc := m.pc + 2 }) hstack
      (Exec.decode_of_value hcallee)]
    simp only [hf]
  refine .after hcode ?_
  rw [Exec.perform_call hargc]
  by_cases harity : code.arity = args.size + 1
  · have hpc : m.pc + 2 < codeBound :=
      Nat.lt_of_le_of_lt (hcode.next_le (by rfl)) (hs.defined.isShort _ hs.code)
    have hspec :
        Ensures (Exec.callFunction Caller.native args.size) { m with pc := m.pc + 2 } _ _ :=
      (Ensures.congr hcall).mpr (Exec.callInside_spec (hs.withPc (m.pc + 2)) hstack
        ((hs.knows hcallee).defines hf) hf hslots harity hbp hpc)
    refine Ensures.bind (hspec.mono (fun _ _ h ↦ h) fun _ _ h ↦ h.fails hE rfl rfl) ?_
    rintro _ m' ⟨caller, dict, log, hgrows, hcaller, rfl, hs'⟩
    exact .pure ⟨rfl, h harity caller dict log _ hgrows hcaller rfl hs'⟩
  · have hmismatch : Exec.callInside f code (stack.size + 2) args.size { m with pc := m.pc + 2 } =
        .error (.failed ⟨.arityMismatch f.name (code.arity - 1) args.size, {}⟩)
          { m with pc := m.pc + 2 } := by
      unfold Exec.callInside
      rw [if_pos harity]
      rfl
    exact .of_error (bind_of_error (hcall.trans hmismatch)) ⟨_, rfl, rfl, rfl, hfail harity⟩

end Next

/-! ## Going back -/

theorem Machine.savedNumber_of_small {index n : Nat} (h : m.stack[index]? = some (.small n))
    (hn : n < 0x80000000) : m.savedNumber index = .ok n := by
  have hsmall : (Word.small n).asSmall? = some n := by
    unfold Word.asSmall?
    rw [Word.view_small hn]
  unfold Machine.savedNumber
  simp only [Machine.cell_eq_ok h, bind, Except.bind, hsmall]
  rfl

/-- The cells behind the variables say how to go back. -/
structure Machine.Linked (m : Machine) (stack : Array Word) (bp pc : Nat) (caller : Word) :
    Prop where
  savedBp : stack[m.linkStart]? = some (.small bp)
  savedPc : stack[m.linkStart + 1]? = some (.small pc)
  function : stack[m.linkStart + 2]? = some caller
  bpSmall : bp < 0x80000000
  pcSmall : pc < 0x80000000

/-- Where no caller is to be gone back to, a return ends the run. -/
theorem Exec.step_last {call : Caller} {stack : Array Word} {word : Word}
    (hcode : m.code.Contains m.pc ((.ret, line) :: rest)) (hstack : m.stack = stack.push word)
    (hlink : stack[m.linkStart + 1]? = some Word.zero) :
    step call m = .ok (some word) { m with pc := m.pc + 1, stack } := by
  have hsaved : Exec.query (fun m ↦ m.savedNumber (m.linkStart + 1))
      { m with pc := m.pc + 1, stack } = .ok 0 { m with pc := m.pc + 1, stack } :=
    Exec.query_of_ok (Machine.savedNumber_of_small hlink (by decide))
  have hpop : pop { m with pc := m.pc + 1 } = .ok word { m with pc := m.pc + 1, stack } :=
    pop_of_push hstack
  exact step_of_ok hcode.fetch? ((bind_of_ok hpop).trans (bind_of_ok hsaved))

namespace Next

variable {stack : Array Word} {result caller : Word}

/-- With a result the machine goes on behind the call. -/
theorem ret (hs : m.Sound p objects) (hcode : m.code.Contains m.pc ((.ret, line) :: rest))
    (hstack : m.stack = stack.push result) {bp pc : Nat}
    (hlinked : m.Linked stack bp pc caller) (hpc : pc ≠ 0) (hbp : m.bp ≠ 0) {f : Function}
    {code : Code} (hcaller : m.run.dict.value caller = .ok (.function f))
    (hf : f.code? = some code)
    (h : ∀ log m', m' = { m with
        pc, bp, function := f, code, run := { m.run with log }
        stack := (stack.shrink (m.bp - 1)).push result } →
      m'.Sound p objects → Q m') : Next E Q m := by
  obtain ⟨hs₁, hresult⟩ := hs.of_push hstack
  have hsavedPc : Exec.query (fun m ↦ m.savedNumber (m.linkStart + 1))
      { m with pc := m.pc + 1, stack } = .ok pc { m with pc := m.pc + 1, stack } :=
    Exec.query_of_ok (Machine.savedNumber_of_small hlinked.savedPc hlinked.pcSmall)
  have hsavedBp : Exec.query (fun m ↦ m.savedNumber m.linkStart)
      { m with pc := m.pc + 1, stack } = .ok bp { m with pc := m.pc + 1, stack } :=
    Exec.query_of_ok (Machine.savedNumber_of_small hlinked.savedBp hlinked.bpSmall)
  have hfunction : Exec.query (fun m ↦ m.cell (m.linkStart + 2) >>= m.run.dict.function)
      { m with pc := m.pc + 1, stack } = .ok f { m with pc := m.pc + 1, stack } := by
    refine Exec.query_of_ok ?_
    have hcell : Machine.cell { m with pc := m.pc + 1, stack } (m.linkStart + 2) = .ok caller :=
      Machine.cell_eq_ok hlinked.function
    exact (congrArg (· >>= m.run.dict.function) hcell).trans (Dictionary.function_of_value hcaller)
  refine .after hcode (Ensures.bind_ok (Exec.pop_of_push hstack) ?_)
  refine Ensures.bind_ok hsavedPc ?_
  rw [if_neg hpc]
  refine Ensures.bind_ok hsavedBp (Ensures.bind_ok hfunction ?_)
  simp only [hf]
  have hroom : (stack.shrink (m.bp - 1)).size < m.stackLimit := by
    have hlimit := hs.room
    rw [hstack, Array.size_push] at hlimit
    rw [Array.size_shrink]
    omega
  have hkept : (if m.bp = 0 then stack else stack.shrink (m.bp - 1)) = stack.shrink (m.bp - 1) :=
    if_neg hbp
  have hback := congrArg (fun stack ↦ (EStateM.Result.ok PUnit.unit
    { m with stack, pc, bp, function := f, code } : EStateM.Result Stop Machine PUnit)) hkept
  refine Ensures.bind_ok hback (Ensures.bind_ok (Exec.push_of_room hroom) ?_)
  obtain ⟨log, hreport⟩ := Exec.report_eq .trace (fun m ↦ .returned m.function.name m.stackDump)
    { m with pc, bp, function := f, code, stack := (stack.shrink (m.bp - 1)).push result }
  refine Ensures.bind_ok hreport (.pure ⟨rfl, h log _ rfl ?_⟩)
  have hshrunk := Machine.Sound.shrink hs₁ (m.bp - 1)
  have hback := Machine.Sound.withLog (Machine.Sound.push hshrunk hresult hroom) log
  exact { hback with defined := (hs.knows hcaller).defines hf, code := hf }

end Next

end TandemScript
