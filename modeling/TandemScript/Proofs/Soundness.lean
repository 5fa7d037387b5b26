import TandemScript.Proofs.Copying
import TandemScript.Proofs.Program
import TandemScript.Proofs.Stepping

/-!
# Sound machines

What holds in every state of a machine that runs a compiled program: words on the stack and in the
heap are valid, the dictionary and the globals hold nothing from outside, and the running function
is one that the program knows. For each operation of the machine there is one lemma that says what
it does from a sound state.
-/

namespace TandemScript

/-! ## Values -/

/-- A value that may be an entry of the dictionary while the program runs. -/
def Value.Plain (p : Program) : Value → Prop
  | .function f => p.Knows f
  | .record _ => False
  | _ => True

/-- A value that the program can have outside a machine: its records were copied from objects of
the heap. -/
def Value.Valid (p : Program) (heapId : Nat) (objects : List Placed) (records : Records) :
    Value → Prop
  | .function f => p.Knows f
  | .record id => ∃ o ∈ objects, records.origin? id = some ⟨heapId, o.start⟩
  | _ => True

theorem Value.Plain.valid {p : Program} {value : Value} (h : value.Plain p) (heapId : Nat)
    (objects : List Placed) (records : Records) : value.Valid p heapId objects records := by
  cases value <;> first | exact h | trivial

theorem Value.Valid.plain {p : Program} {heapId : Nat} {objects : List Placed}
    {records : Records} {value : Value} (h : value.Valid p heapId objects records)
    (hrecord : ∀ id, value ≠ .record id) : value.Plain p := by
  cases value with
  | record id => exact absurd rfl (hrecord id)
  | _ => exact h

theorem Value.Valid.mono {p : Program} {heapId : Nat} {objects objects' : List Placed}
    {records records' : Records} {value : Value} (h : value.Valid p heapId objects records)
    (hobjects : objects ⊆ objects') (hrecords : records.Keeps records') :
    value.Valid p heapId objects' records' := by
  cases value with
  | record id =>
    obtain ⟨o, ho, horigin⟩ := h
    exact ⟨o, hobjects ho, hrecords.origin? horigin⟩
  | _ => exact h

/-- What a valid word stands for outside the machine: a plain value, or a copy of an object. -/
def Word.Decodes (dict : Dictionary) (heap : Heap) (objects : List Placed) (records : Records)
    (word : Word) (value : Value) : Prop :=
  ∃ copies, word.Reads dict copies value ∧ CopiesOf dict heap objects records copies

theorem CopiesOf.mono {dict : Dictionary} {heap : Heap} {objects : List Placed}
    {records records' : Records} {copies : Nat → Option RecordId}
    (h : CopiesOf dict heap objects records copies) (hkeeps : records.Keeps records') :
    CopiesOf dict heap objects records' copies := by
  intro index id hid
  obtain ⟨o, ho, hstart, record, hrecord, hstands⟩ := h index id hid
  exact ⟨o, ho, hstart, record, hkeeps id record hrecord, hstands⟩

theorem Word.Decodes.mono {dict : Dictionary} {heap : Heap} {objects : List Placed}
    {records records' : Records} {word : Word} {value : Value}
    (h : word.Decodes dict heap objects records value) (hkeeps : records.Keeps records') :
    word.Decodes dict heap objects records' value := by
  obtain ⟨copies, hreads, hcopies⟩ := h
  exact ⟨copies, hreads, hcopies.mono hkeeps⟩

/-- The word that a value has inside a machine. -/
inductive Word.Means (dict : Dictionary) (heapId : Nat) (records : Records) : Word → Value → Prop
  | plain {word : Word} {value : Value} :
    dict.Denotes word value → Means dict heapId records word value
  | object {word : Word} {id : RecordId} {index : Nat} :
    records.origin? id = some ⟨heapId, index⟩ → word.view = .reference index →
      Means dict heapId records word (.record id)
  | shape {word : Word} {id : Nat} {shape other : Shape} :
    dict.value word = .ok (.shape id other) → Means dict heapId records word (.shape id shape)

theorem Dictionary.Denotes.valid {dict : Dictionary} {word : Word} {value : Value}
    (h : dict.Denotes word value) (objects : List Placed) : word.Valid dict objects := by
  cases h with
  | small hint =>
    unfold Word.ofInt? at hint
    split at hint
    · simp at hint
    · next n hn =>
      obtain rfl := Option.some.inj hint
      refine .of_small ?_
      have hlt := Int32.toInt_lt n
      omega
  | entry hentry _ => exact .of_value hentry

theorem Word.Means.valid {p : Program} {dict : Dictionary} {heapId : Nat} {objects : List Placed}
    {records : Records} {word : Word} {value : Value} (hword : word.Means dict heapId records value)
    (hvalue : value.Valid p heapId objects records) : word.Valid dict objects := by
  cases hword with
  | plain hdenotes => exact hdenotes.valid objects
  | object horigin hview =>
    obtain ⟨o, ho, horigin'⟩ := hvalue
    have hsame := horigin.symm.trans horigin'
    simp only [Option.some.injEq, Origin.mk.injEq, true_and] at hsame
    exact .of_reference ho (hsame ▸ hview)
  | shape hentry => exact .of_value hentry

/-- A valid word refers to an object, or it has a plain value. -/
theorem Word.Valid.reference_or_plain {dict : Dictionary} {objects : List Placed} {word : Word}
    (hword : word.Valid dict objects) :
    (∃ o ∈ objects, word.view = .reference o.start) ∨
      (∀ index, word.view ≠ .reference index) ∧
        ∃ value, plainValue dict word = .ok value := by
  by_cases hplain : ∀ index, word.view ≠ .reference index
  · obtain ⟨value, hvalue, -⟩ := plainValue_spec hword hplain
    exact .inr ⟨hplain, value, hvalue⟩
  · obtain ⟨index, hview⟩ := Classical.not_forall.mp hplain
    have hview := Classical.not_not.mp hview
    unfold Word.Valid at hword
    simp only [hview] at hword
    obtain ⟨o, ho, rfl⟩ := hword
    exact .inl ⟨o, ho, hview⟩

/-! ## Machines -/

/-- The machine runs the program, and everything that it holds is valid. -/
structure Machine.Sound (p : Program) (objects : List Placed) (m : Machine) : Prop where
  grows : p.pool.dict.GrowsTo m.run.dict
  entries : ∀ index value, m.run.dict.get? index = some value → value.Plain p
  heap : m.heap.Sound m.run.dict objects
  stack : ∀ word ∈ m.stack, word.Valid m.run.dict objects
  globals : ∀ name value, m.run.globals.get? name = some value →
    value.Valid p m.heap.id objects m.run.records
  room : m.stack.size ≤ m.stackLimit
  defined : p.Defines m.function
  code : m.function.code? = some m.code

/-- A resource ran out, or the dictionary is full. -/
def Machine.RanOut (m : Machine) (failure : Failure) : Prop :=
  failure.IsExhaustion ∨
    failure.cause = .inconsistent .dictionaryFull ∧ indexBound ≤ m.run.dict.size

/-- The computation fails in the function of the machine because something ran out. -/
def Machine.Starves (m : Machine) (stop : Stop) (m' : Machine) : Prop :=
  ∃ failure, stop = .failed failure ∧ m'.function = m.function ∧ m'.code = m.code ∧
    m'.RanOut failure

namespace Machine.Sound

variable {p : Program} {objects : List Placed} {m : Machine}

theorem global_valid (h : m.Sound p objects) (name : String) :
    (m.run.global name).Valid p m.heap.id objects m.run.records := by
  unfold RunState.global
  cases hglobal : m.run.globals.get? name with
  | none => trivial
  | some value => exact h.globals name value hglobal

theorem withRecords (h : m.Sound p objects) {records : Records}
    (hkeeps : m.run.records.Keeps records) :
    ({ m with run := { m.run with records } } : Machine).Sound p objects :=
  { h with globals := fun name value hvalue ↦
      (h.globals name value hvalue).mono (fun _ ho ↦ ho) hkeeps }

theorem withDict (h : m.Sound p objects) {dict : Dictionary} (hgrows : m.run.dict.GrowsTo dict)
    (hentries : ∀ index value, dict.get? index = some value → value.Plain p) :
    ({ m with run := { m.run with dict } } : Machine).Sound p objects :=
  { h with
    grows := h.grows.trans hgrows
    entries := hentries
    heap := h.heap.mono hgrows
    stack := fun word hword ↦ (h.stack word hword).mono hgrows fun _ ho ↦ ho }

theorem withLog (h : m.Sound p objects) (log : Log) :
    ({ m with run := { m.run with log } } : Machine).Sound p objects :=
  { h with }

theorem withOutput (h : m.Sound p objects) (output : String) :
    ({ m with run := { m.run with output } } : Machine).Sound p objects :=
  { h with }

theorem setGlobal (h : m.Sound p objects) {name : String} {value : Value}
    (hvalue : value.Valid p m.heap.id objects m.run.records) :
    ({ m with run := { m.run with globals := m.run.globals.set name value } } : Machine).Sound p
      objects := by
  refine { h with globals := fun other found hfound ↦ ?_ }
  have hset := m.run.globals.get?_set name other value
  rw [hset] at hfound
  split at hfound
  · obtain rfl := Option.some.inj hfound
    exact hvalue
  · exact h.globals other found hfound

theorem withPc (h : m.Sound p objects) (pc : Nat) : ({ m with pc } : Machine).Sound p objects :=
  { h with }

/-- The stack may be replaced by one that fits and has only valid words. -/
theorem withStack (h : m.Sound p objects) {stack : Array Word}
    (hstack : ∀ word ∈ stack, word.Valid m.run.dict objects) (hroom : stack.size ≤ m.stackLimit) :
    ({ m with stack } : Machine).Sound p objects :=
  { h with stack := hstack, room := hroom }

theorem setCell (h : m.Sound p objects) {o : Placed} (ho : o ∈ objects) {offset : Nat}
    (hoffset : offset < o.shape.size) {word : Word} (hword : word.Valid m.run.dict objects) :
    ({ m with heap := m.heap.setCell (o.cell offset) word } : Machine).Sound p objects :=
  { h with heap := h.heap.setCell ho hoffset hword }

theorem size_le (h : m.Sound p objects) : m.stack.size ≤ indexBound :=
  Nat.le_trans h.room (Nat.min_le_right _ _)

/-- The field of an object is valid, and so is the word at a cell of the stack. -/
theorem stack_valid (h : m.Sound p objects) {index : Nat} {word : Word}
    (hword : m.stack[index]? = some word) : word.Valid m.run.dict objects :=
  h.stack word (Array.mem_of_getElem? hword)

theorem field_valid (h : m.Sound p objects) {o : Placed} {offset : Nat} {word : Word}
    (hword : m.heap.field? o offset = some word) : word.Valid m.run.dict objects :=
  h.heap.valid word (Array.mem_of_getElem? hword)

/-- A word on the stack that names a function names a known one. -/
theorem knows (h : m.Sound p objects) {word : Word} {f : Function}
    (hword : m.run.dict.value word = .ok (.function f)) : p.Knows f := by
  obtain ⟨index, -, hget⟩ := Dictionary.value_eq_ok.mp hword
  exact h.entries index _ hget

theorem valid_of_decodes (h : m.Sound p objects) {word : Word} {value : Value}
    {records : Records} (hvalue : word.Decodes m.run.dict m.heap objects records value) :
    value.Valid p m.heap.id objects records := by
  obtain ⟨copies, hreads, hcopies⟩ := hvalue
  unfold Word.Reads at hreads
  cases hview : word.view with
  | small n =>
    simp only [hview] at hreads
    rw [hreads]
    trivial
  | entry index =>
    simp only [hview] at hreads
    exact (h.entries index value hreads).valid _ _ _
  | reference index =>
    simp only [hview] at hreads
    obtain ⟨id, hid, rfl⟩ := hreads
    obtain ⟨o, ho, rfl, record, hrecord, hstands, -⟩ := hcopies index id hid
    refine ⟨o, ho, ?_⟩
    unfold Records.origin?
    rw [hrecord]
    exact hstands.origin

end Machine.Sound

/-! ## Words and values -/

theorem Dictionary.intern_means {p : Program} {dict : Dictionary}
    (hentries : ∀ index value, dict.get? index = some value → value.Plain p) (value : Value)
    (hplain : value.Plain p) (hlarge : ∀ n, value = .int n → Word.ofInt? n = none) (heapId : Nat)
    (records : Records) :
    (∃ word dict', Dictionary.intern value dict = .ok word dict' ∧ dict.GrowsTo dict' ∧
      (∀ index value, dict'.get? index = some value → value.Plain p) ∧
      word.Means dict' heapId records value) ∨
    Dictionary.intern value dict = .error (.inconsistent .dictionaryFull) dict ∧
      indexBound ≤ dict.size := by
  rcases Dictionary.intern_spec value dict with ⟨word, dict', found, hintern, h⟩ | h
  · left
    refine ⟨word, dict', hintern, h.grows, ?_, ?_⟩
    · intro index other hother
      rcases h.added index other hother with hold | rfl
      · exact hentries index other hold
      · exact hplain
    · have hnames := h.names
      cases value with
      | function f =>
        obtain ⟨g, rfl, hid⟩ := Value.function_of_sharesEntry h.shares
        have hsame : f = g := by
          rcases h.origin with ⟨index, hold⟩ | hself
          · exact Program.Knows.unique hplain (hentries index _ hold) hid
          · exact (Value.function.inj hself).symm
        rw [← hsame] at hnames
        exact .plain (.entry hnames hlarge)
      | shape id shape =>
        obtain ⟨other, rfl⟩ := Value.shape_of_sharesEntry h.shares
        exact .shape hnames
      | record id => exact hplain.elim
      | _ =>
        obtain rfl := Value.eq_of_sharesEntry h.shares (by simp) (by simp)
        exact .plain (.entry hnames hlarge)
  · exact .inr h

theorem encode_spec {p : Program} {dict : Dictionary} {heap : Heap} {objects : List Placed}
    (hheap : heap.Sound dict objects)
    (hentries : ∀ index value, dict.get? index = some value → value.Plain p) {records : Records}
    {value : Value} (hvalue : value.Valid p heap.id objects records) :
    (∃ word dict', encode records heap value dict = .ok word dict' ∧ dict.GrowsTo dict' ∧
      (∀ index value, dict'.get? index = some value → value.Plain p) ∧
      word.Means dict' heap.id records value) ∨
    encode records heap value dict = .error (.inconsistent .dictionaryFull) dict ∧
      indexBound ≤ dict.size := by
  cases value with
  | int n =>
    cases hword : Word.ofInt? n with
    | some word =>
      left
      refine ⟨word, dict, ?_, .refl dict, hentries, .plain (.small hword)⟩
      unfold encode
      simp only [hword]
      rfl
    | none =>
      have hencode : encode records heap (.int n) = Dictionary.intern (.int n) := by
        unfold encode
        simp only [hword]
      rw [hencode]
      refine Dictionary.intern_means hentries (.int n) trivial ?_ heap.id records
      rintro _ ⟨⟩
      exact hword
  | record id =>
    left
    obtain ⟨o, ho, horigin⟩ := hvalue
    have hlt := hheap.referable o ho
    have hword : Word.reference? o.start = some ⟨.ofNat (4 * o.start)⟩ := if_pos hlt
    refine ⟨_, dict, ?_, .refl dict, hentries, .object horigin (Word.view_of_reference? hword)⟩
    unfold encode
    simp only [horigin, if_pos, hword]
    rfl
  | _ =>
    exact Dictionary.intern_means hentries _ (hvalue.plain (by simp)) (by simp) heap.id records

namespace Exec

variable {p : Program} {objects : List Placed} {m : Machine}

theorem decode_spec (h : m.Sound p objects) {word : Word} (hword : word.Valid m.run.dict objects) :
    ∃ value records, decode word m = .ok value { m with run := { m.run with records } } ∧
      m.run.records.Keeps records ∧ word.Decodes m.run.dict m.heap objects records value := by
  obtain ⟨value, records, copies, hdecode, hkeeps, hreads, hcopies⟩ :=
    TandemScript.decode_spec h.heap.regular hword m.run.records
  refine ⟨value, records, ?_, hkeeps, copies, hreads, hcopies⟩
  unfold Exec.decode
  cases hview : word.view with
  | reference index =>
    simp only [onRun_apply, Run.onRecords_apply, hdecode]
  | _ =>
    have hplain : TandemScript.decode m.run.dict m.heap word =
        MonadExcept.ofExcept (plainValue m.run.dict word) := decode_of_plain (by simp [hview])
    rw [hplain] at hdecode
    cases hvalue : plainValue m.run.dict word with
    | ok found =>
      rw [hvalue] at hdecode
      obtain ⟨rfl, rfl⟩ := EStateM.Result.ok.inj hdecode
      rfl
    | error failure =>
      rw [hvalue] at hdecode
      cases hdecode

/-- What encoding a value leaves behind. -/
structure Encoded (p : Program) (dict : Dictionary) (heapId : Nat) (records : Records)
    (value : Value) (word : Word) (dict' : Dictionary) : Prop where
  grows : dict.GrowsTo dict'
  entries : ∀ index value, dict'.get? index = some value → value.Plain p
  means : word.Means dict' heapId records value

/-- A valid value has a word, unless the dictionary is full. -/
theorem encode_spec (h : m.Sound p objects) {value : Value}
    (hvalue : value.Valid p m.heap.id objects m.run.records) :
    Ensures (encode value) m
      (fun word m' ↦ ∃ dict, m' = { m with run := { m.run with dict } } ∧
        Encoded p m.run.dict m.heap.id m.run.records value word dict)
      m.Starves := by
  unfold Ensures Exec.encode
  simp only [onRun_apply, Run.onDict_apply]
  rcases TandemScript.encode_spec h.heap h.entries hvalue with
    ⟨word, dict, hencode, hgrows, hentries, hmeans⟩ | ⟨hencode, hfull⟩
  · rw [hencode]
    exact ⟨dict, rfl, hgrows, hentries, hmeans⟩
  · rw [hencode]
    exact ⟨_, rfl, rfl, rfl, .inr ⟨rfl, hfull⟩⟩

end Exec

end TandemScript
