import TandemScript.Proofs.Comparisons
import TandemScript.Proofs.Objects

/-!
# What global names keep

A global name that is bound to an object of the heap keeps a copy of it. The fields of the copy are
those that the object had when the name was bound: they are still the same at the end of the run,
and a later write to the object does not change them.
-/

namespace TandemScript

variable {p : Program} {objects : List Placed} {callers : List Waiting} {operands steps : Nat}
  {m m' m₀ : Machine} {records records' : Records} {id : RecordId}

/-! ## Two copies of one object -/

theorem CopiesOf.origin? {dict : Dictionary} {heap : Heap} {copies : Nat → Option RecordId}
    (h : CopiesOf dict heap objects records copies) {index : Nat} (hid : copies index = some id) :
    records.origin? id = some ⟨heap.id, index⟩ := by
  obtain ⟨o, -, rfl, record, hrecord, hstands, -⟩ := h index id hid
  exact hstands.origin? hrecord

/-- What a word reads as is the same for all copies of objects of one heap. -/
theorem Word.Reads.same {dict : Dictionary} {copies copies' : Nat → Option RecordId} {word : Word}
    {value found : Value} {heapId : Nat} (h : word.Reads dict copies value)
    (h' : word.Reads dict copies' found)
    (hcopies : ∀ index id, copies index = some id → records.origin? id = some ⟨heapId, index⟩)
    (hcopies' : ∀ index id, copies' index = some id → records.origin? id = some ⟨heapId, index⟩) :
    value.same records found = true := by
  unfold Word.Reads at h h'
  cases hview : word.view with
  | small n =>
    simp only [hview] at h h'
    rw [h, h']
    exact Value.same_self records _
  | entry index =>
    simp only [hview] at h h'
    rw [Option.some.inj (h.symm.trans h')]
    exact Value.same_self records _
  | reference index =>
    simp only [hview] at h h'
    obtain ⟨a, ha, rfl⟩ := h
    obtain ⟨b, hb, rfl⟩ := h'
    exact Records.sameObject_iff.mpr (.inr ⟨_, hcopies index a ha, hcopies' index b hb⟩)

/-- Whenever a word is read, what it stands for is the same. -/
theorem Word.Decodes.same {dict : Dictionary} {heap : Heap} {word : Word} {value found : Value}
    (h : word.Decodes dict heap objects records value)
    (h' : word.Decodes dict heap objects records found) : value.same records found = true := by
  obtain ⟨copies, hreads, hcopies⟩ := h
  obtain ⟨copies', hreads', hcopies'⟩ := h'
  exact hreads.same hreads' (fun _ _ ↦ hcopies.origin?) fun _ _ ↦ hcopies'.origin?

/-! ## Copies of a state -/

/-- The record is a copy of an object with the fields that it has in the machine. -/
def Machine.Shows (m : Machine) (objects : List Placed) (records : Records) (id : RecordId) :
    Prop :=
  ∃ copies index, copies index = some id ∧ CopiesOf m.run.dict m.heap objects records copies

namespace Machine.Shows

theorem mono (h : m.Shows objects records id) (hkeeps : records.Keeps records') :
    m.Shows objects records' id := by
  obtain ⟨copies, index, hid, hcopies⟩ := h
  exact ⟨copies, index, hid, hcopies.mono hkeeps⟩

theorem of_decodes (hs : m.Sound p objects) {word : Word}
    (h : word.Decodes m.run.dict m.heap objects records (.record id)) :
    m.Shows objects records id := by
  obtain ⟨copies, hreads, hcopies⟩ := h
  unfold Word.Reads at hreads
  cases hview : word.view with
  | small n =>
    simp only [hview] at hreads
    cases hreads
  | entry index =>
    simp only [hview] at hreads
    exact (hs.entries index _ hreads).elim
  | reference index =>
    simp only [hview] at hreads
    obtain ⟨_, hid, ⟨⟩⟩ := hreads
    exact ⟨copies, index, hid, hcopies⟩

/-- Each field of the copy is the same as what the field of the object is decoded to. -/
theorem fields (hs : m.Sound p objects) (h : m.Shows objects records id) :
    ∃ o ∈ objects, records.origin? id = some ⟨m.heap.id, o.start⟩ ∧ ∀ name,
      match o.shape.slot? name with
      | none => records.field? id name = none
      | some offset => ∃ word value found more, m.heap.readField o.start offset = .ok word ∧
          records.field? id name = some value ∧
          decode m.run.dict m.heap word records = .ok found more ∧
          value.same more found = true := by
  obtain ⟨copies, index, hid, hcopies⟩ := h
  obtain ⟨o, ho, rfl, record, hrecord, hstands, hfilled⟩ := hcopies index id hid
  refine ⟨o, ho, hcopies.origin? hid, fun name ↦ ?_⟩
  rw [hstands.field? hrecord]
  cases hslot : o.shape.slot? name with
  | none => rfl
  | some offset =>
    have hlt := Shape.lt_of_slot? hslot
    obtain ⟨word, hread, hword⟩ := hs.heap.readField ho hlt
    obtain ⟨_, value, hword', hvalue, hreads⟩ := hfilled offset hlt
    obtain rfl := Option.some.inj (hword.symm.trans hword')
    obtain ⟨found, more, copies', hdecode, hkeeps, hreads', hcopies'⟩ :=
      decode_spec hs.heap.regular (hs.field_valid hword) records
    have hvalue' : word.Decodes m.run.dict m.heap objects more value :=
      ⟨copies, hreads, hcopies.mono hkeeps⟩
    exact ⟨word, value, found, more, hread, hvalue, hdecode,
      hvalue'.same ⟨copies', hreads', hcopies'⟩⟩

end Machine.Shows

/-- A record that a global name is bound to shows an object in some earlier state. -/
theorem Machine.Framed.shows {count : Nat} (h : m.Framed p objects callers operands)
    (hnone : ∀ name id, m.run.globals.get? name ≠ some (.record id))
    (hafter : m.after (Function.callWithin steps) count = some m') {name : String}
    (hbound : m'.run.globals.get? name = some (.record id)) :
    ∃ earlier m₁ objects₁, m.after (Function.callWithin steps) earlier = some m₁ ∧
      m₁.Sound p objects₁ ∧ m₁.Shows objects₁ m'.run.records id := by
  induction count generalizing m' with
  | zero =>
    obtain rfl := Option.some.inj hafter
    exact absurd hbound (hnone name id)
  | succ count ih =>
    obtain ⟨m₁, hafter₁, hnext⟩ := Option.bind_eq_some_iff.mp hafter
    obtain ⟨later, callers₁, operands₁, h₁⟩ := h.exists_after hafter₁
    obtain ⟨-, -, -, -, -, -, hbinds⟩ := h₁.goes (goes_of_next? hnext)
    rcases hbinds.globals name _ hbound with hold | ⟨word, hvalue⟩
    · obtain ⟨earlier, m₂, objects₂, hafter₂, hs, hshows⟩ := ih hafter₁ hold
      exact ⟨earlier, m₂, objects₂, hafter₂, hs, hshows.mono hbinds.records⟩
    · exact ⟨count, m₁, _, hafter₁, h₁.toSound, .of_decodes h₁.toSound hvalue⟩

/-! ## The end of a run -/

theorem Machine.after_of_goes {call : Caller} (h : m.Goes call m') (count : Nat) :
    m.after call (count + 1) = m'.after call count := by
  induction count with
  | zero =>
    have hnext : m.next? call = some m' := by
      unfold next?
      rw [h]
    exact hnext
  | succ count ih =>
    calc m.after call (count + 2)
      _ = (m.after call (count + 1)).bind (next? call) := rfl
      _ = (m'.after call count).bind (next? call) := by rw [ih]

/-- A run with a result comes to a last state, from which one step leads to the result. -/
theorem Exec.exists_last {call : Caller} {word : Word} (h : run call steps m = .ok word m') :
    ∃ count m₁, m.after call count = some m₁ ∧ step call m₁ = .ok (some word) m' := by
  induction steps generalizing m with
  | zero => cases h
  | succ steps ih =>
    cases hstep : step call m with
    | error stop m₁ => cases (bind_of_error hstep).symm.trans h
    | ok result m₁ =>
      have hrest := (bind_of_ok hstep).symm.trans h
      cases result with
      | some found =>
        cases hrest
        exact ⟨0, m, rfl, hstep⟩
      | none =>
        obtain ⟨count, m₂, hafter, hlast⟩ := ih hrest
        exact ⟨count + 1, m₂, (Machine.after_of_goes hstep count).trans hafter, hlast⟩

/-- Decoding the result only adds records. -/
theorem Machine.Framed.result_decodes (h : m.Framed p objects callers operands) {word : Word}
    (hlast : Exec.step (Function.callWithin steps) m = .ok (some word) m') {value : Value}
    {m'' : Machine} (hdecode : Exec.decode word m' = .ok value m'') :
    m''.run.globals = m.run.globals ∧ m.run.records.Keeps m''.run.records := by
  rcases h.next_or_final with hnext | ⟨-, found, m₁, hfinal⟩
  · cases (hnext.of_callWithin hlast).1
  · cases (hfinal.step _).symm.trans hlast
    obtain ⟨_, records, hdecode', hkeeps, -⟩ := Exec.decode_spec hfinal.sound hfinal.result
    cases hdecode.symm.trans hdecode'
    have hglobals : m'.run.globals = m.run.globals := by rw [hfinal.run]
    rw [hfinal.run] at hkeeps
    exact ⟨hglobals, hkeeps⟩

section Scripts

variable {script : Script} {config : Config} {level : Option Level} {main : Function} {pool : Pool}

theorem Script.Accepted.exists_last (h : script.Accepted config level main pool) {value : Value}
    {st : RunState}
    (hrun : script.runOn .machine (steps + 1) (.new config level) = .ok value st) :
    ∃ m₀ count m word m₁ m₂, script.entered? config level = some m₀ ∧
      m₀.after (Function.callWithin steps) count = some m ∧
      Exec.step (Function.callWithin steps) m = .ok (some word) m₁ ∧
      Exec.decode word m₁ = .ok value m₂ ∧ st = { m₂.run with depth := m₂.run.depth - 1 } := by
  obtain ⟨code, hcode, harity⟩ := h.main_code
  rw [h.runOn_machine hcode harity] at hrun
  unfold Exec.session at hrun
  cases henter : Exec.enter .undefined [] (h.program.machine config code) with
  | error stop m => simp [bind_of_error henter] at hrun
  | ok result m₀ =>
    rw [bind_of_ok henter] at hrun
    cases hexec : Exec.run (Function.callWithin steps) steps m₀ with
    | error stop m => simp [bind_of_error hexec] at hrun
    | ok word m₁ =>
      rw [bind_of_ok hexec] at hrun
      obtain ⟨count, m, hafter, hlast⟩ := Exec.exists_last hexec
      cases hdecode : Exec.decode word m₁ with
      | error stop m₂ => simp [hdecode] at hrun
      | ok found m₂ =>
        rw [hdecode] at hrun
        cases hrun
        exact ⟨m₀, count, m, word, m₁, m₂, (h.entered?_eq_some hcode).mpr henter, hafter, hlast,
          hdecode, rfl⟩

/-- After a run that succeeds, a record that a global name is bound to is a copy of an object. Each
of its fields is the same as what the field of the object was decoded to in some state of the run;
the record has no other fields. -/
theorem bound_record_shows_object (h : script.Accepted config level main pool) {value : Value}
    {st : RunState}
    (hrun : script.runOn .machine (steps + 1) (.new config level) = .ok value st) {name : String}
    (hbound : st.global name = .record id) :
    ∃ m₀ count m objects, script.entered? config level = some m₀ ∧
      m₀.after (Function.callWithin steps) count = some m ∧ m.ConsistsOf objects ∧
      ∃ o ∈ objects, st.records.origin? id = some ⟨m.heap.id, o.start⟩ ∧ ∀ field,
        match o.shape.slot? field with
        | none => st.readField (.record id) field = .ok .undefined
        | some offset => ∃ word kept found records,
            m.heap.readField o.start offset = .ok word ∧
            st.readField (.record id) field = .ok kept ∧
            decode m.run.dict m.heap word st.records = .ok found records ∧
            kept.same records found = true := by
  obtain ⟨m₀, last, m₁, word, m₂, m₃, hentered, hafter, hlast, hdecode, rfl⟩ := h.exists_last hrun
  obtain ⟨hframed, hinitial⟩ := h.framed hentered
  obtain ⟨later, callers, operands, hm₁⟩ := hframed.exists_after hafter
  obtain ⟨hglobals, hkeeps⟩ := hm₁.result_decodes hlast hdecode
  have hget : m₁.run.globals.get? name = some (.record id) := by
    change (m₃.run.globals.get? name).getD .undefined = .record id at hbound
    rw [hglobals] at hbound
    cases hget : m₁.run.globals.get? name with
    | none =>
      rw [hget] at hbound
      cases hbound
    | some found =>
      rw [hget] at hbound
      exact congrArg some hbound
  have hnone (name : String) (id : RecordId) : m₀.run.globals.get? name ≠ some (.record id) := by
    rw [hinitial]
    exact fun hrecord ↦ Bindings.initial_plain h.program hrecord
  obtain ⟨count, m, objects, hearlier, hs, hshows⟩ := hframed.shows hnone hafter hget
  obtain ⟨o, ho, horigin, hfields⟩ := (hshows.mono hkeeps).fields hs
  refine ⟨m₀, count, m, objects, hentered, hearlier, hs.consistsOf, o, ho, horigin, fun field ↦ ?_⟩
  have hfield := hfields field
  cases hslot : o.shape.slot? field with
  | none =>
    simp only [hslot] at hfield
    simp [RunState.readField, hfield]
  | some offset =>
    simp only [hslot] at hfield
    obtain ⟨word, kept, found, records, hread, hkept, hdecode, hsame⟩ := hfield
    exact ⟨word, kept, found, records, hread, by simp [RunState.readField, hkept], hdecode, hsame⟩

end Scripts

/-- A program that binds a global name to an object and then writes a field of the object. -/
def aliasWrite : Script :=
  .ofList [.declare "o" (.objectOf [("x", .int 1)]), .put (.read "global") "g" (.read "o"),
    .put (.read "o") "x" (.int 2)]

/-- The record that a global name is bound to after a run, with a field that is an integer. -/
def boundField? (name field : String) :
    EStateM.Result Stop RunState Value → Option (Option Origin × Int32)
  | .error _ _ => none
  | .ok _ st =>
    match st.global name with
    | .record id =>
      match st.readField (.record id) field with
      | .ok (.int n) => some (st.records.origin? id, n)
      | _ => none
    | _ => none

theorem exists_of_boundField? {name field : String} {result : EStateM.Result Stop RunState Value}
    {origin : Option Origin} {n : Int32} (h : boundField? name field result = some (origin, n)) :
    ∃ value st id, result = .ok value st ∧ st.global name = .record id ∧
      st.records.origin? id = origin ∧ st.readField (.record id) field = .ok (.int n) := by
  unfold boundField? at h
  split at h
  · cases h
  · next value st =>
    split at h
    · next id hid =>
      split at h
      · next found hfound =>
        cases h
        exact ⟨value, st, id, rfl, hid, rfl, hfound⟩
      · cases h
    · cases h

theorem aliasWrite_shows_object :
    ∃ main pool value st id, aliasWrite.Accepted {} none main pool ∧
      aliasWrite.runOn .machine 21 (.new {}) = .ok value st ∧ st.global "g" = .record id ∧
      ∃ m₀ count m objects, aliasWrite.entered? {} none = some m₀ ∧
        m₀.after (Function.callWithin 20) count = some m ∧ m.ConsistsOf objects ∧
        ∃ o ∈ objects, st.records.origin? id = some ⟨m.heap.id, o.start⟩ ∧ ∀ field,
          match o.shape.slot? field with
          | none => st.readField (.record id) field = .ok .undefined
          | some offset => ∃ word kept found records,
              m.heap.readField o.start offset = .ok word ∧
              st.readField (.record id) field = .ok kept ∧
              decode m.run.dict m.heap word st.records = .ok found records ∧
              kept.same records found = true := by
  have hcheck : aliasWrite.isAccepted none = true := by decide +kernel
  have hfield : boundField? "g" "x" (aliasWrite.runOn .machine 21 (.new {})) =
    some (some ⟨1, 0⟩, 1) := by decide +kernel
  obtain ⟨main, pool, h⟩ := Script.accepted_of_check hcheck {}
  obtain ⟨value, st, id, hrun, hbound, -, -⟩ := exists_of_boundField? hfield
  exact ⟨main, pool, value, st, id, h, hrun, hbound, bound_record_shows_object h hrun hbound⟩

/-- The heap number and a field of an object when a run has its result after so many steps. -/
def Script.finalField? (script : Script) (count index offset : Nat) : Option (Nat × Word) :=
  (script.entered? {} none).bind fun m₀ ↦ (m₀.after (Function.callWithin 20) count).bind fun m ↦
    match Exec.step (Function.callWithin 20) m with
    | .ok (some _) m' => (m'.heap.readField index offset).toOption.map (m'.heap.id, ·)
    | _ => none

theorem Script.exists_of_finalField? {script : Script} {count index offset heapId : Nat}
    {word : Word} (h : script.finalField? count index offset = some (heapId, word)) :
    ∃ m₀ m result m', script.entered? {} none = some m₀ ∧
      m₀.after (Function.callWithin 20) count = some m ∧
      Exec.step (Function.callWithin 20) m = .ok (some result) m' ∧ m'.heap.id = heapId ∧
      m'.heap.readField index offset = .ok word := by
  obtain ⟨m₀, hentered, h⟩ := Option.bind_eq_some_iff.mp h
  obtain ⟨m, hafter, h⟩ := Option.bind_eq_some_iff.mp h
  split at h
  · next result m' hstep =>
    obtain ⟨found, hfound, hsame⟩ := Option.map_eq_some_iff.mp h
    cases hsame
    cases hread : m'.heap.readField index offset with
    | error failure =>
      rw [hread] at hfound
      cases hfound
    | ok found' =>
      rw [hread] at hfound
      cases hfound
      exact ⟨m₀, m, result, m', hentered, hafter, hstep, rfl, hread⟩
  · cases h

/-- At the end of the run the object has another field than the record that the name is bound to. -/
theorem aliasWrite_not_seen :
    ∃ main pool value st id m₀ m result m' word found,
      aliasWrite.Accepted {} none main pool ∧
      aliasWrite.runOn .machine 21 (.new {}) = .ok value st ∧
      aliasWrite.entered? {} none = some m₀ ∧
      m₀.after (Function.callWithin 20) 10 = some m ∧
      Exec.step (Function.callWithin 20) m = .ok (some result) m' ∧
      st.global "g" = .record id ∧ st.records.origin? id = some ⟨m'.heap.id, 0⟩ ∧
      st.readField (.record id) "x" = .ok (.int 1) ∧ m'.heap.readField 0 0 = .ok word ∧
      decode m'.run.dict m'.heap word st.records = .ok found st.records ∧
      Value.same st.records (.int 1) found = false := by
  have hcheck : aliasWrite.isAccepted none = true := by decide +kernel
  have hfield : boundField? "g" "x" (aliasWrite.runOn .machine 21 (.new {})) =
    some (some ⟨1, 0⟩, 1) := by decide +kernel
  have hfinal : aliasWrite.finalField? 10 0 0 = some (1, .small 2) := by decide +kernel
  obtain ⟨main, pool, h⟩ := Script.accepted_of_check hcheck {}
  obtain ⟨value, st, id, hrun, hbound, horigin, hkept⟩ := exists_of_boundField? hfield
  obtain ⟨m₀, m, result, m', hentered, hafter, hstep, hheap, hread⟩ :=
    Script.exists_of_finalField? hfinal
  have hview : (Word.small 2).view = .small 2 := Word.view_small (by decide)
  have hdecode : decode m'.run.dict m'.heap (.small 2) st.records = .ok (.int 2) st.records := by
    rw [decode_of_plain (by simp [hview]), plainValue_of_small hview]
    rfl
  refine ⟨main, pool, value, st, id, m₀, m, result, m', _, _, h, hrun, hentered, hafter, hstep,
    hbound, ?_, hkept, hread, hdecode, rfl⟩
  rw [horigin, hheap]

end TandemScript
