import TandemScript.Proofs.Agreement
import TandemScript.Proofs.CallRules

/-!
# Instructions that do what the tree does

A state of a machine and a state of a run on the tree hold the same, seen through a world. For each
instruction, what the machine does to its state is what the operation of the tree evaluator does to
the other one, or both fail alike.
-/

namespace TandemScript

variable {p : Program} {changed : Option FrameId} {w w' : World}

/-! ## States -/

/-- The state of a run on the tree and that of a run of a machine with its heap hold the same. -/
structure World.Relates (p : Program) (w : World) (st run : RunState) (heap : Heap) : Prop where
  dict : run.dict = w.dict
  frames : st.frames = w.frames
  records : st.records.Mirrored p w heap
  globals : ∀ name, (run.global name).Mirrors p w heap.id run.records (st.global name)
  output : run.output = st.output
  nextId : Builtin.all.length ≤ st.nextId

theorem RunState.global_set (st : RunState) (name other : String) (value : Value) :
    ({ st with globals := st.globals.set name value } : RunState).global other =
      if name = other then value else st.global other := by
  unfold global
  simp only [Bindings.get?_set]
  split <;> rfl

namespace World

theorem Extends.withDict (w : World) {dict : Dictionary} (h : w.dict.GrowsTo dict) :
    w.Extends none { w with dict } :=
  ⟨h, List.prefix_rfl, .refl _ _⟩

theorem Extends.withFrames (w : World) {frames : Frames} (h : w.frames.Keeps changed frames) :
    w.Extends changed { w with frames } :=
  ⟨.refl _, List.prefix_rfl, h⟩

theorem Extends.withObject (w : World) (o : Placed) :
    w.Extends none { w with objects := w.objects ++ [o] } :=
  ⟨.refl _, List.prefix_append _ _, .refl _ _⟩

theorem Extends.weaken (h : w.Extends none w') : w.Extends changed w' :=
  ⟨h.dict, h.objects, h.frames.weaken⟩

namespace Relates

variable {st run : RunState} {heap : Heap}

theorem withDict (h : w.Relates p st run heap) {dict : Dictionary} (hgrows : w.dict.GrowsTo dict) :
    { w with dict }.Relates p st { run with dict } heap :=
  { h with
    dict := rfl
    records := h.records.mono (.withDict w hgrows) rfl
    globals := fun name ↦ (h.globals name).mono (.withDict w hgrows) fun _ _ h ↦ h }

theorem withFrames (h : w.Relates p st run heap) {frames : Frames}
    (hkeeps : w.frames.Keeps changed frames) :
    { w with frames }.Relates p { st with frames } run heap :=
  { h with
    frames := rfl
    records := h.records.mono (.withFrames w hkeeps) rfl
    globals := fun name ↦ (h.globals name).mono (.withFrames w hkeeps) fun _ _ h ↦ h }

theorem withRecords (h : w.Relates p st run heap) {records : Records}
    (hkeeps : run.records.Keeps records) : w.Relates p st { run with records } heap :=
  { h with globals := fun name ↦ (h.globals name).mono (.refl none w) hkeeps }

theorem withOutput (h : w.Relates p st run heap) (output : String) :
    w.Relates p { st with output := st.output ++ output }
      { run with output := run.output ++ output } heap :=
  { h with output := congrArg (· ++ output) h.output }

theorem withDepth (h : w.Relates p st run heap) (depth : Nat) :
    w.Relates p { st with depth } run heap :=
  { h with }

theorem withFreshId (h : w.Relates p st run heap) :
    w.Relates p { st with nextId := st.nextId + 1 } run heap :=
  { h with nextId := Nat.le_succ_of_le h.nextId }

theorem setGlobal (h : w.Relates p st run heap) (name : String) {found value : Value}
    (hvalue : found.Mirrors p w heap.id run.records value) :
    w.Relates p { st with globals := st.globals.set name value }
      { run with globals := run.globals.set name found } heap := by
  refine { h with globals := fun other ↦ ?_ }
  rw [RunState.global_set, RunState.global_set]
  split
  · exact hvalue
  · exact h.globals other

end Relates

end World

theorem Dictionary.Denotes.plain {dict : Dictionary} {word : Word} {value : Value}
    (h : dict.Denotes word value) :
    plainValue dict word = .ok value ∧ ∀ index, word.view ≠ .reference index := by
  cases h with
  | small hword =>
    obtain ⟨hview, hn⟩ := Word.view_of_ofInt? hword
    refine ⟨?_, by simp [hview]⟩
    rw [plainValue_of_small hview, hn]
  | entry hvalue _ =>
    obtain ⟨index, hview, -⟩ := Dictionary.value_eq_ok.mp hvalue
    exact ⟨plainValue_of_value hvalue, by simp [hview]⟩

namespace Word.Stands

variable {word : Word} {value : Value}

theorem valid (h : word.Stands p w value) : word.Valid w.dict w.objects := by
  cases h with
  | basic _ hdenotes => exact hdenotes.valid _
  | function hword _ => exact .of_value hword
  | record ho hview => exact .of_reference (List.mem_of_getElem? ho) hview

/-- A word that stands for no record has a value of its own. -/
theorem plain (h : word.Stands p w value) (hrecord : ∀ id, value ≠ .record id) :
    (∀ index, word.view ≠ .reference index) ∧ ∃ found, plainValue w.dict word = .ok found ∧
      (found = .global ↔ value = .global) ∧ ∀ expected records records',
        Failure.notA expected records found = Failure.notA expected records' value := by
  cases h with
  | basic hbasic hdenotes =>
    exact ⟨hdenotes.plain.2, value, hdenotes.plain.1, Iff.rfl, fun expected records records' ↦
      (Value.Resembles.basic hbasic).notA_eq expected⟩
  | @function g f hword hg =>
    have hdenotes : w.dict.Denotes word (.function g) := .entry hword (by simp)
    exact ⟨hdenotes.plain.2, _, hdenotes.plain.1, by simp, fun expected records records' ↦
      (Value.Resembles.function hg.name_eq).notA_eq expected⟩
  | record _ _ => exact absurd rfl (hrecord _)

/-- A word that stands for no function names none. -/
theorem not_function (h : word.Stands p w value) (hvalue : ∀ f, value ≠ .function f)
    (g : Function) : w.dict.value word ≠ .ok (.function g) := by
  intro hword
  cases h with
  | basic hbasic hdenotes =>
    have hsame := hdenotes.plain.1.symm.trans (plainValue_of_value hword)
    rw [Except.ok.inj hsame] at hbasic
    exact hbasic
  | function _ _ => exact hvalue _ rfl
  | record _ hview =>
    obtain ⟨index, hentry, -⟩ := Dictionary.value_eq_ok.mp hword
    rw [hview] at hentry
    cases hentry

end Word.Stands

/-- Words stand for values, one by one. -/
structure Word.StandAll (p : Program) (w : World) (words : Array Word) (values : List Value) :
    Prop where
  size : words.size = values.length
  each : ∀ (index : Nat) word value, words[index]? = some word → values[index]? = some value →
    word.Stands p w value

namespace Word.StandAll

theorem nil : StandAll p w #[] [] :=
  ⟨rfl, by simp⟩

theorem mono {words : Array Word} {values : List Value} (h : StandAll p w words values)
    (hw : w.Extends changed w') : StandAll p w' words values :=
  ⟨h.size, fun index word value hword hvalue ↦ (h.each index word value hword hvalue).mono hw⟩

theorem cons {word : Word} {value : Value} {words : Array Word} {values : List Value}
    (hword : word.Stands p w value) (h : StandAll p w words values) :
    StandAll p w (#[word] ++ words) (value :: values) where
  size := by
    rw [Array.size_append, h.size, List.length_cons, Nat.add_comm]
    rfl
  each := by
    rintro (_ | index) other found hother hfound
    · rw [Array.getElem?_append_left Nat.one_pos] at hother
      obtain rfl := Option.some.inj hother
      obtain rfl := Option.some.inj hfound
      exact hword
    · rw [Array.getElem?_append_right (Nat.le_add_left 1 index)] at hother
      exact h.each index other found hother hfound

end Word.StandAll

/-! ## Machines -/

/-- The second machine is in the same activation as the first one, at a position and with a stack,
and it holds the same as a state of a run on the tree. -/
structure Machine.Meets (p : Program) (m : Machine) (w : World) (pc : Nat) (stack : Array Word)
    (st : RunState) (m' : Machine) : Prop where
  sound : m'.Sound p w.objects
  bp : m'.bp = m.bp
  function : m'.function = m.function
  code : m'.code = m.code
  pc : m'.pc = pc
  stack : m'.stack = stack
  relates : w.Relates p st m'.run m'.heap

/-- Beyond that the second machine has the word of a value on top of its stack. -/
def Machine.Delivers (p : Program) (m : Machine) (w : World) (pc : Nat) (stack : Array Word)
    (value : Value) (st : RunState) (m' : Machine) : Prop :=
  ∃ w' word, w.Extends none w' ∧ m.Meets p w' pc (stack.push word) st m' ∧ word.Stands p w' value

theorem Machine.Delivers.of_extends {m m' : Machine} {pc : Nat} {stack : Array Word}
    {value : Value} {st : RunState} (hw : w.Extends none w')
    (h : m.Delivers p w' pc stack value st m') : m.Delivers p w pc stack value st m' := by
  obtain ⟨w'', word, hw', hmeets, hword⟩ := h
  exact ⟨w'', word, hw.trans hw', hmeets, hword⟩

namespace Machine.Meets

variable {m m₁ m₂ : Machine} {pc pc' : Nat} {stack stack' : Array Word} {st st' : RunState}
  {line : UInt32} {rest : Fragment} {word : Word} {value : Value}

theorem contains (h : m.Meets p w pc stack st m₁) {fragment : Fragment}
    (hcode : m.code.Contains pc fragment) : m₁.code.Contains m₁.pc fragment := by
  rw [h.code, h.pc]
  exact hcode

theorem target_lt (h : m.Meets p w pc stack st m₁) {target : Nat}
    (htarget : target ≤ m.code.words.size) : target < UInt32.size :=
  h.sound.target_lt (by rw [h.code]; exact htarget)

theorem grows (h : m.Meets p w pc stack st m₁) : p.pool.dict.GrowsTo w.dict :=
  h.relates.dict ▸ h.sound.grows

theorem heap (h : m.Meets p w pc stack st m₁) : m₁.heap.Sound w.dict w.objects :=
  h.relates.dict ▸ h.sound.heap

theorem undefined (h : m.Meets p w pc stack st m₁) : Word.undefined.Stands p w .undefined :=
  .basic trivial (.entry (h.grows.value p.undefined) (by simp))

/-- What the machine finds for a word mirrors the value on the tree, and looks like it. -/
theorem decodes (h : m.Meets p w pc stack st m₁) (hword : word.Stands p w value)
    {records : Records} {found : Value}
    (hdecodes : word.Decodes m₁.run.dict m₁.heap w.objects records found) :
    found.Mirrors p w m₁.heap.id records value ∧ found.Resembles records st.records value := by
  rw [h.relates.dict] at hdecodes
  obtain ⟨copies, hreads, hcopies⟩ := hdecodes
  exact Word.Stands.decodes h.heap h.relates.records hcopies hword hreads

/-- A value that is encoded has a word that stands for what it mirrors. -/
theorem encoded (h : m.Meets p w pc stack st m₁) {records : Records} {found : Value}
    {dict : Dictionary} (hvalue : found.Mirrors p w m₁.heap.id records value)
    (hencoded : Exec.Encoded p m₁.run.dict m₁.heap.id records found word dict) :
    w.dict.GrowsTo dict ∧ word.Stands p { w with dict } value := by
  have hgrows : w.dict.GrowsTo dict := h.relates.dict ▸ hencoded.grows
  have hvalue' := hvalue.mono (.withDict w hgrows) fun _ _ h ↦ h
  exact ⟨hgrows, hvalue'.stands hencoded.means hencoded.entries⟩

/-- Where the tree takes no notice of a step, the states go on holding the same. -/
theorem tree (h : m.Meets p w pc stack st m₁) (hst : w.Relates p st' m₁.run m₁.heap) :
    m.Meets p w pc stack st' m₁ :=
  { h with relates := hst }

/-- An instruction and an operation on the tree fail in the same way. -/
theorem fails (h : m.Meets p w pc stack st m₁) (i : Instruction) {failure found : Failure}
    (hsame : found = failure) (hcontext : failure.context = {})
    (houtput : m₂.run.output = st.output) :
    FailsAlike m.function.name line failure {} st (m₁.noted i line found) m₂ := by
  subst hsame
  rw [← h.function]
  exact .inr ⟨.noted m₁ i hcontext, houtput⟩

/-! ### The stack -/

theorem const (h : m.Meets p w pc stack st m₁)
    (hcode : m.code.Contains pc ((.const word, line) :: rest)) (hword : word.Stands p w value) :
    Leads (fun found m' ↦ m'.RanOut found) (m.Delivers p w (pc + 2) stack value st) m₁ := by
  refine .next <| .const lenient_ranOut h.sound (h.contains hcode)
    (h.relates.dict ▸ hword.valid) ?_
  rintro _ rfl hs'
  exact .arrived ⟨w, word, .refl _ w, ⟨hs', h.bp, h.function, h.code, congrArg (· + 2) h.pc,
    congrArg (·.push word) h.stack, h.relates⟩, hword⟩

theorem dup (h : m.Meets p w pc (stack.push word) st m₁)
    (hcode : m.code.Contains pc ((.dup, line) :: rest)) :
    Leads (fun found m' ↦ m'.RanOut found)
      (m.Meets p w (pc + 1) ((stack.push word).push word) st) m₁ := by
  refine .next <| .dup lenient_ranOut h.sound (h.contains hcode) h.stack ?_
  rintro _ rfl hs'
  exact .arrived ⟨hs', h.bp, h.function, h.code, congrArg (· + 1) h.pc,
    congrArg (·.push word) h.stack, h.relates⟩

theorem pop (h : m.Meets p w pc (stack.push word) st m₁)
    (hcode : m.code.Contains pc ((.pop, line) :: rest)) :
    Leads (fun found m' ↦ m'.RanOut found) (m.Meets p w (pc + 1) stack st) m₁ := by
  refine .next <| .pop h.sound (h.contains hcode) h.stack ?_
  rintro _ rfl hs'
  exact .arrived ⟨hs', h.bp, h.function, h.code, congrArg (· + 1) h.pc, rfl, h.relates⟩

theorem swap {second : Word} (h : m.Meets p w pc ((stack.push second).push word) st m₁)
    (hcode : m.code.Contains pc ((.swap, line) :: rest)) :
    Leads (fun found m' ↦ m'.RanOut found)
      (m.Meets p w (pc + 1) ((stack.push word).push second) st) m₁ := by
  refine .next <| .swap h.sound (h.contains hcode) h.stack ?_
  rintro _ rfl hs'
  exact .arrived ⟨hs', h.bp, h.function, h.code, congrArg (· + 1) h.pc, rfl, h.relates⟩

theorem goto (h : m.Meets p w pc stack st m₁) {target : Nat}
    (hcode : m.code.Contains pc ((.goto (.ofNat target), line) :: rest))
    (htarget : target ≤ m.code.words.size) :
    Leads (fun found m' ↦ m'.RanOut found) (m.Meets p w target stack st) m₁ := by
  refine .next <| .goto h.sound (h.contains hcode) (h.target_lt htarget) ?_
  rintro _ rfl hs'
  exact .arrived ⟨hs', h.bp, h.function, h.code, rfl, h.stack, h.relates⟩

theorem jumpIfFalse (h : m.Meets p w pc (stack.push word) st m₁) {target : Nat}
    (hcode : m.code.Contains pc ((.jumpIfFalse (.ofNat target), line) :: rest))
    (htarget : target ≤ m.code.words.size) (hword : word.Stands p w value) :
    Leads (fun found m' ↦ m'.RanOut found)
      (m.Meets p w (if value.isFalse then target else pc + 2) stack st) m₁ := by
  refine .next <| .jumpIfFalse h.sound (h.contains hcode) (h.target_lt htarget) h.stack ?_
  rintro _ rfl hs'
  refine .arrived ⟨hs', h.bp, h.function, h.code, ?_, rfl, h.relates⟩
  simp only [hword.eq_zero_iff, h.pc]

/-! ### Variables -/

theorem load (h : m.Meets p w pc stack st m₁) {slot : Nat}
    (hcode : m.code.Contains pc ((.load (.ofNat slot), line) :: rest))
    (hslot : slot < m.code.slots) (hframe : m.bp + m.code.slots ≤ stack.size)
    (hcell : stack[m.bp + slot]? = some word) (hword : word.Stands p w value) :
    Leads (fun found m' ↦ m'.RanOut found) (m.Delivers p w (pc + 2) stack value st) m₁ := by
  refine .next <| .load lenient_ranOut h.sound (h.contains hcode) (by rw [h.code]; exact hslot)
    (by rw [h.bp, h.code, h.stack]; exact hframe) ?_
  rintro found _ hfound rfl hs'
  rw [h.stack, h.bp, hcell] at hfound
  obtain rfl := Option.some.inj hfound
  exact .arrived ⟨w, word, .refl _ w, ⟨hs', h.bp, h.function, h.code, congrArg (· + 2) h.pc,
    congrArg (·.push word) h.stack, h.relates⟩, hword⟩

theorem store (h : m.Meets p w pc (stack.push word) st m₁) {slot : Nat}
    (hcode : m.code.Contains pc ((.store (.ofNat slot), line) :: rest))
    (hslot : slot < m.code.slots) (hframe : m.bp + m.code.slots ≤ stack.size) :
    Leads (fun found m' ↦ m'.RanOut found)
      (m.Meets p w (pc + 2) (stack.setIfInBounds (m.bp + slot) word) st) m₁ := by
  refine .next <| .store h.sound (h.contains hcode) (by rw [h.code]; exact hslot)
    (by rw [h.bp, h.code]; exact hframe) h.stack ?_
  rintro _ rfl hs'
  exact .arrived ⟨hs', h.bp, h.function, h.code, congrArg (· + 2) h.pc,
    congrArg (fun bp ↦ stack.setIfInBounds (bp + slot) word) h.bp, h.relates⟩

/-! ### Names -/

theorem lookup (h : m.Meets p w pc stack st m₁) {name : String} {nameWord : Word}
    (hcode : m.code.Contains pc ((.lookup nameWord, line) :: rest))
    (hname : p.pool.dict.value nameWord = .ok (.str name)) :
    Leads (fun found m' ↦ m'.RanOut found)
      (m.Delivers p w (pc + 2) stack (st.global name) st) m₁ := by
  refine .next <| .lookup lenient_ranOut h.sound (h.contains hcode) (h.sound.grows.value hname) ?_
  rintro word dict _ hencoded rfl hs'
  obtain ⟨hgrows, hword⟩ := h.encoded (h.relates.globals name) hencoded
  exact .arrived ⟨{ w with dict }, word, .withDict w hgrows, ⟨hs', h.bp, h.function, h.code,
    congrArg (· + 2) h.pc, congrArg (·.push word) h.stack, h.relates.withDict hgrows⟩, hword⟩

theorem register (h : m.Meets p w pc (stack.push word) st m₁) {name : String} {nameWord : Word}
    (hcode : m.code.Contains pc ((.register nameWord, line) :: rest))
    (hname : p.pool.dict.value nameWord = .ok (.str name)) (hword : word.Stands p w value) :
    Leads (fun found m' ↦ m'.RanOut found)
      (m.Meets p w (pc + 2) stack { st with globals := st.globals.set name value }) m₁ := by
  refine .next <| .register h.sound (h.contains hcode) (h.sound.grows.value hname) h.stack ?_
  rintro found records _ hkeeps hdecodes rfl hs'
  exact .arrived ⟨hs', h.bp, h.function, h.code, congrArg (· + 2) h.pc, rfl,
    (h.relates.withRecords hkeeps).setGlobal name (h.decodes hword hdecodes).1⟩

/-! ### Fields -/

theorem getRecord (h : m.Meets p w pc (stack.push word) st m₁) {name : String} {nameWord : Word}
    (hcode : m.code.Contains pc ((.get nameWord, line) :: rest))
    (hname : p.pool.dict.value nameWord = .ok (.str name)) {id : RecordId}
    (hword : word.Stands p w (.record id)) :
    Leads (fun found m' ↦ m'.RanOut found)
      (m.Delivers p w (pc + 2) stack ((st.records.field? id name).getD .undefined) st) m₁ := by
  cases hword with
  | basic hbasic _ => exact hbasic.elim
  | record ho hview =>
    refine .next <| .getObject lenient_ranOut h.sound (h.contains hcode)
      (h.sound.grows.value hname) h.stack (List.mem_of_getElem? ho) hview ?_
    rintro found _ hfound rfl hs'
    exact .arrived ⟨w, found, .refl _ w, ⟨hs', h.bp, h.function, h.code, congrArg (· + 2) h.pc,
      rfl, h.relates⟩, h.relates.records.field?_stands ho h.undefined hfound⟩

/-- Of the other values only the one that stands for the globals has fields. -/
theorem getOther (h : m.Meets p w pc (stack.push word) st m₁) {name : String} {nameWord : Word}
    (hcode : m.code.Contains pc ((.get nameWord, line) :: rest))
    (hname : p.pool.dict.value nameWord = .ok (.str name)) (hword : word.Stands p w value)
    (hrecord : ∀ id, value ≠ .record id) :
    Simulates m.function.name line (Traced.lift (Run.readField value name)) st
      (m.Delivers p w (pc + 2) stack) m₁ := by
  have hname := h.sound.grows.value hname
  obtain ⟨hplain, found, hfound, hglobal, hnotA⟩ := hword.plain hrecord
  rw [← h.relates.dict] at hfound
  by_cases hvalue : value = .global
  · subst hvalue
    refine .of_ok rfl (.next <| .getPlain lenient_ranOut h.sound (h.contains hcode) hname h.stack
      hfound hplain ?_ fun hne ↦ absurd (hglobal.mpr rfl) hne)
    rintro - word dict _ hencoded rfl hs'
    obtain ⟨hgrows, hword⟩ := h.encoded (h.relates.globals name) hencoded
    exact .arrived ⟨{ w with dict }, word, .withDict w hgrows, ⟨hs', h.bp, h.function, h.code,
      congrArg (· + 2) h.pc, rfl, h.relates.withDict hgrows⟩, hword⟩
  · have hread : Traced.lift (Run.readField value name) st =
        .error (.failed (.notA "object" st.records value) {}) st := by
      cases value with
      | record id => exact absurd rfl (hrecord id)
      | global => exact absurd rfl hvalue
      | _ => rfl
    refine .of_failed hread (.next <| .getPlain (lenient_failsAlike _ _ _ _ _) h.sound
      (h.contains hcode) hname h.stack hfound hplain
      (fun heq ↦ absurd (hglobal.mp heq) hvalue) fun _ ↦ ?_)
    exact h.fails _ (hnotA ..) (Failure.context_notA ..) h.relates.output

theorem get (h : m.Meets p w pc (stack.push word) st m₁) {name : String} {nameWord : Word}
    (hcode : m.code.Contains pc ((.get nameWord, line) :: rest))
    (hname : p.pool.dict.value nameWord = .ok (.str name)) (hword : word.Stands p w value) :
    Simulates m.function.name line (Traced.lift (Run.readField value name)) st
      (m.Delivers p w (pc + 2) stack) m₁ := by
  by_cases hrecord : ∃ id, value = .record id
  · obtain ⟨id, rfl⟩ := hrecord
    exact .of_ok rfl (h.getRecord hcode hname hword)
  · exact h.getOther hcode hname hword (not_exists.mp hrecord)

section Put

variable {receiver : Word} {target : Value} {name : String} {nameWord : Word}
  (h : m.Meets p w pc ((stack.push receiver).push word) st m₁)
  (hcode : m.code.Contains pc ((.put nameWord, line) :: rest))
  (hname : p.pool.dict.value nameWord = .ok (.str name)) (hword : word.Stands p w value)
include h hcode hname hword

theorem putRecord {id : RecordId} (hreceiver : receiver.Stands p w (.record id)) :
    Simulates m.function.name line (Traced.lift (Run.writeField (.record id) name value)) st
      (fun _ ↦ m.Meets p w (pc + 2) stack) m₁ := by
  have hname := h.sound.grows.value hname
  cases hreceiver with
  | basic hbasic _ => exact hbasic.elim
  | @record _ o ho hview =>
    obtain ⟨record, hget, hshape, -⟩ := h.relates.records.get? ho
    have hmem := List.mem_of_getElem? ho
    cases hslot : o.shape.slot? name with
    | some offset =>
      have hwrite : Traced.lift (Run.writeField (.record id) name value) st =
          .ok () { st with records := st.records.setSlot id offset value } := by
        unfold Traced.lift
        simp only [Run.writeField_record, hget, Option.bind_some, hshape, hslot]
      refine .of_ok hwrite (.next <| .putObject h.sound (h.contains hcode) hname h.stack hmem
        hview ?_ fun hnone ↦ by simp [hslot] at hnone)
      rintro other hother _ rfl hs'
      obtain rfl := Option.some.inj (hslot.symm.trans hother)
      refine .arrived ⟨hs', h.bp, h.function, h.code, congrArg (· + 2) h.pc, rfl, ?_⟩
      exact { h.relates with
        records := h.relates.records.setSlot h.heap.toHolds ho (Shape.lt_of_slot? hslot) hword }
    | none =>
      have hwrite : Traced.lift (Run.writeField (.record id) name value) st =
          .error (.failed ⟨.invalidField name, {}⟩ {}) st := by
        unfold Traced.lift
        simp only [Run.writeField_record, hget, Option.bind_some, hshape, hslot]
      refine .of_failed hwrite (.next <| .putObject h.sound (h.contains hcode) hname h.stack hmem
        hview (fun offset hsome ↦ by simp [hslot] at hsome) fun _ ↦ ?_)
      exact h.fails _ rfl rfl h.relates.output

theorem putOther (hreceiver : receiver.Stands p w target) (hrecord : ∀ id, target ≠ .record id) :
    Simulates m.function.name line (Traced.lift (Run.writeField target name value)) st
      (fun _ ↦ m.Meets p w (pc + 2) stack) m₁ := by
  have hname := h.sound.grows.value hname
  obtain ⟨hplain, found, hfound, hglobal, hnotA⟩ := hreceiver.plain hrecord
  rw [← h.relates.dict] at hfound
  by_cases htarget : target = .global
  · subst htarget
    refine .of_ok rfl (.next <| .putPlain h.sound (h.contains hcode) hname h.stack hfound
      hplain ?_ fun hne ↦ absurd (hglobal.mpr rfl) hne)
    rintro - other records _ hkeeps hdecodes rfl hs'
    exact .arrived ⟨hs', h.bp, h.function, h.code, congrArg (· + 2) h.pc, rfl,
      (h.relates.withRecords hkeeps).setGlobal name (h.decodes hword hdecodes).1⟩
  · have hwrite : Traced.lift (Run.writeField target name value) st =
        .error (.failed (.notA "object" st.records target) {}) st := by
      cases target with
      | record id => exact absurd rfl (hrecord id)
      | global => exact absurd rfl htarget
      | _ => rfl
    refine .of_failed hwrite (.next <| .putPlain h.sound (h.contains hcode) hname h.stack hfound
      hplain (fun heq ↦ absurd (hglobal.mp heq) htarget) fun _ records ↦ ?_)
    exact h.fails _ (hnotA ..) (Failure.context_notA ..) h.relates.output

theorem put (hreceiver : receiver.Stands p w target) :
    Simulates m.function.name line (Traced.lift (Run.writeField target name value)) st
      (fun _ ↦ m.Meets p w (pc + 2) stack) m₁ := by
  by_cases hrecord : ∃ id, target = .record id
  · obtain ⟨id, rfl⟩ := hrecord
    exact h.putRecord hcode hname hword hreceiver
  · exact h.putOther hcode hname hword hreceiver (not_exists.mp hrecord)

end Put

/-- The words on the stack become an object, and the values a record. -/
theorem new {words : Array Word} {values : List Value}
    (h : m.Meets p w pc (stack ++ words) st m₁) {shapeWord : Word} {shape : Shape}
    (hcode : m.code.Contains pc ((.new shapeWord, line) :: rest))
    (hshape : p.pool.dict.shape shapeWord = .ok shape) (hwords : Word.StandAll p w words values)
    (hsize : values.length = shape.size) :
    Leads (fun found m' ↦ m'.RanOut found)
      (m.Delivers p w (pc + 2) stack (.record st.records.cells.size)
        { st with records := (st.records.add ⟨shape, values.toArray, none⟩).2 }) m₁ := by
  refine .next <| .new lenient_ranOut h.sound (h.contains hcode) (h.sound.grows.shape hshape)
    (hwords.size.trans hsize) h.stack ?_
  rintro reference log capacity _ hview rfl hs'
  have hw : w.Extends none { w with objects := w.objects ++ [⟨m₁.heap.used, shape⟩] } :=
    .withObject w _
  have hrecords : Records.Mirrored p w { m₁.heap with capacity } st.records :=
    ⟨h.relates.records.size, h.relates.records.stands, h.relates.records.field⟩
  refine .arrived ⟨_, reference, hw, ⟨hs', h.bp, h.function, h.code, congrArg (· + 2) h.pc, rfl,
    h.relates.dict, h.relates.frames, ?_, fun name ↦ (h.relates.globals name).mono hw fun _ _ h ↦ h,
    h.relates.output, h.relates.nextId⟩, .record (o := ⟨m₁.heap.used, shape⟩) ?_ hview⟩
  · refine hrecords.add (h.heap.withCapacity capacity).toHolds hw rfl shapeWord
      (by simpa using hsize) fun index word value hword hvalue ↦ ?_
    exact hwords.each index word value hword (by simpa using hvalue)
  · rw [h.relates.records.size]
    exact List.getElem?_concat_length

/-! ### Calls of other functions -/

section Calls

variable {args : Array Word} {callee receiver : Word} {values : List Value}

/-- A built-in function comes to the same on both sides. -/
theorem builtin_eq (h : m.Meets p w pc stack st m₁) {op : Builtin}
    (hargs : Word.StandAll p w args values)
    (hwatched : (Native.builtin op).comparesFunctions values = false) {target : Value}
    {founds : List Value} {records : Records}
    (hpasses : m₁.Passes w.objects receiver args target founds records) :
    op.call records founds = op.call st.records values := by
  have hlength : founds.length = args.size := hpasses.values.length
  have heach (index : Nat) (found value : Value) (hfound : founds[index]? = some found)
      (hvalue : values[index]? = some value) :
      found.Mirrors p w m₁.heap.id records value ∧ found.Resembles records st.records value := by
    have hlt := (List.getElem?_eq_some_iff.mp hfound).1
    have hword : args[index]? = some args[index] := Array.getElem?_eq_getElem (by omega)
    exact h.decodes (hargs.each index _ value hword hvalue)
      (hpasses.values.each index _ found hword hfound)
  refine Builtin.call_eq op (hlength.trans hargs.size)
    (fun index found value hfound hvalue ↦ (heach index found value hfound hvalue).2) ?_
  rintro hop a b a' b' rfl rfl
  refine Value.Mirrors.same_eq h.heap.laid h.relates.records (heach 0 a a' rfl rfl).1
    (heach 1 b b' rfl rfl).1 fun ⟨ha, hb⟩ ↦ ?_
  have hclosures : (a'.IsClosure && b'.IsClosure) = false := by
    rcases hop with rfl | rfl <;> exact hwatched
  rw [ha, hb] at hclosures
  cases hclosures

theorem callBuiltin (h : m.Meets p w pc (window stack callee receiver args) st m₁)
    (hcode : m.code.Contains pc ((.call (.ofNat args.size), line) :: rest)) {op : Builtin}
    (hcallee : callee.Stands p w (.function op.function)) (hargs : Word.StandAll p w args values)
    (hwatched : (Native.builtin op).comparesFunctions values = false) (target : Value) :
    Simulates m.function.name line (Traced.lift ((Native.builtin op).call target values)) st
      (m.Delivers p w (pc + 2) stack) m₁ := by
  have hvalue : m₁.run.dict.value callee = .ok (.function op.function) := by
    rw [h.relates.dict]
    cases hcallee with
    | basic hbasic _ => exact hbasic.elim
    | function hword hg => exact hg.eq_of_builtin ▸ hword
  cases hcall : op.call st.records values with
  | mk result output =>
    have hsame {founds : List Value} {records : Records} {received : Value}
        {answer : Except Failure Value × String}
        (hpasses : m₁.Passes w.objects receiver args received founds records)
        (hanswer : op.call records founds = answer) : result = answer.1 ∧ output = answer.2 :=
      Prod.mk.inj (hcall.symm.trans ((h.builtin_eq hargs hwatched hpasses).symm.trans hanswer))
    cases result with
    | ok value =>
      have hnative : Traced.lift ((Native.builtin op).call target values) st =
          .ok value { st with output := st.output ++ output } := by
        unfold Traced.lift
        simp only [Native.call_builtin, hcall]
      refine .of_ok hnative (.next <| .callBuiltin lenient_ranOut h.sound (h.contains hcode) h.stack
        hvalue ?_ ?_)
      · rintro _ founds records found output' word dict log _ hpasses hresult hencoded rfl hs'
        obtain ⟨hfound, rfl⟩ := hsame hpasses hresult
        obtain rfl := Except.ok.inj hfound
        have hbasic : value.IsBasic := by
          rcases Builtin.call_ok hresult with rfl | ⟨n, rfl⟩ <;> trivial
        obtain ⟨hgrows, hword⟩ := h.encoded (.basic hbasic) hencoded
        have hrelates := ((h.relates.withRecords hpasses.keeps).withOutput output).withDict hgrows
        exact .arrived ⟨{ w with dict }, word, .withDict w hgrows, ⟨hs', h.bp, h.function, h.code,
          congrArg (· + 2) h.pc, rfl, { hrelates with }⟩, hword⟩
      · intro _ founds records failure output' log hpasses hresult
        cases (hsame hpasses hresult).1
    | error failure =>
      have hnative : Traced.lift ((Native.builtin op).call target values) st =
          .error (.failed failure {}) st := by
        unfold Traced.lift
        simp only [Native.call_builtin, hcall]
      have hcontext : failure.context = {} := by
        rcases Builtin.failure_of_call hcall with ⟨expected, found, rfl⟩ | rfl | rfl
        · exact Failure.context_notA ..
        · rfl
        · rfl
      refine .of_failed hnative (.next <| .callBuiltin (lenient_failsAlike _ _ _ _ _) h.sound
        (h.contains hcode) h.stack hvalue ?_ ?_)
      · rintro _ founds records found output' word dict log _ hpasses hresult - - -
        cases (hsame hpasses hresult).1
      · intro _ founds records failure' output' log hpasses hresult
        obtain rfl := Except.error.inj (hsame hpasses hresult).1
        exact h.fails _ rfl hcontext h.relates.output

/-- A value that is no function cannot be called. -/
theorem callOther (h : m.Meets p w pc (window stack callee receiver args) st m₁)
    (hcode : m.code.Contains pc ((.call (.ofNat args.size), line) :: rest))
    (hcallee : callee.Stands p w value) (hvalue : ∀ f, value ≠ .function f) (call : TracedCaller)
    (target : Value) :
    Simulates m.function.name line (Traced.callValue call value target values) st
      (m.Delivers p w (pc + 2) stack) m₁ := by
  have hcall : Traced.callValue call value target values st =
      .error (.failed (.notA "function" st.records value) {}) st := by
    cases value with
    | function f => exact absurd rfl (hvalue f)
    | _ => rfl
  refine .of_failed hcall (.next <| .callOther h.sound (h.contains hcode) h.stack
    (fun f ↦ h.relates.dict ▸ hcallee.not_function hvalue f) fun found records _ hdecodes ↦ ?_)
  exact h.fails _ ((h.decodes hcallee hdecodes).2.notA_eq _) (Failure.context_notA ..)
    h.relates.output

end Calls

end Machine.Meets

end TandemScript
