import TandemScript.Proofs.ObjectGraphs
import TandemScript.Proofs.Snapshots

/-!
# Fields in the heap and fields of copies

A machine reads and writes the fields of an object where it lies in the heap, without a copy. This
comes to the same as copying the object and reading or writing the field of the record. A write
shows in all copies of the object from then on, whatever way leads to it, and in no other record.
-/

namespace TandemScript

variable {dict : Dictionary} {heap : Heap} {objects : List Placed} {o x y : Placed}
  {word receiver : Word} {name : String} {slot : Nat} {before records : Records}
  {copies : Nat → Option RecordId} {m : Machine}

/-! ## Writing one cell -/

namespace Heap

/-- A write to a field changes no other field. -/
theorem Tiled.field?_setCell_of_ne (h : heap.Tiled dict objects) (ho : o ∈ objects)
    (hslot : slot < o.shape.size) (hx : x ∈ objects) {offset : Nat}
    (hoffset : offset < x.shape.size) (word : Word) (hne : x.start = o.start → offset ≠ slot) :
    (heap.setCell (o.cell slot) word).field? x offset = heap.field? x offset := by
  obtain ⟨i, hi⟩ := List.mem_iff_getElem?.mp ho
  obtain ⟨j, hj⟩ := List.mem_iff_getElem?.mp hx
  refine h.field?_setCell_ne hi hj hslot hoffset word ?_
  by_cases hij : i = j
  · subst hij
    obtain rfl := Option.some.inj (hi.symm.trans hj)
    exact .inr (Ne.symm (hne rfl))
  · exact .inl hij

theorem Regular.mem_of_header (h : heap.Regular dict objects) (hx : x ∈ objects)
    (hreached : heap.Reaches dict x.start o.start) (hheader : heap.HasHeader dict o) :
    o ∈ objects := by
  obtain ⟨other, hother, hstart⟩ := h.mem_of_reaches hx hreached
  have hfound : heap.HasHeader dict other := h.header other hother
  rwa [← hfound.unique hheader hstart]

/-- A reference that does not lead to the object leads to the same ones after a write to it. -/
theorem Regular.reaches_setCell (h : heap.Regular dict objects) (ho : o ∈ objects)
    (hslot : slot < o.shape.size) (hword : word.Valid dict objects) (hx : x ∈ objects)
    (hapart : ¬heap.Reaches dict x.start o.start) (index : Nat) :
    (heap.setCell (o.cell slot) word).Reaches dict x.start index ↔
      heap.Reaches dict x.start index := by
  have h' := h.setCell ho hslot hword
  constructor
  · intro hreached
    induction hreached with
    | root => exact .root
    | @field p offset next found hp hheader hoffset hfound hview ih =>
      have hmem := h'.mem_of_header hx hp hheader
      have hne : p.start = o.start → offset ≠ slot := fun heq ↦ absurd (heq ▸ ih) hapart
      rw [h.field?_setCell_of_ne ho hslot hmem hoffset word hne] at hfound
      exact .field ih (h.header p hmem) hoffset hfound hview
  · intro hreached
    induction hreached with
    | root => exact .root
    | @field p offset next found hp hheader hoffset hfound hview ih =>
      have hmem := h.mem_of_header hx hp hheader
      have hne : p.start = o.start → offset ≠ slot := fun heq ↦ absurd (heq ▸ hp) hapart
      rw [← h.field?_setCell_of_ne ho hslot hmem hoffset word hne] at hfound
      exact .field ih (h'.header p hmem) hoffset hfound hview

end Heap

/-! ## Records that are alike -/

/-- The records have the same shape and the same origin, and all their values are the same. -/
structure Record.Alike (records : Records) (a b : Record) : Prop where
  shape : a.shape = b.shape
  origin : a.origin = b.origin
  fields : ∀ slot < a.shape.size, ∃ value value', a.fields[slot]? = some value ∧
    b.fields[slot]? = some value' ∧ value.same records value' = true

/-- The record of an object that was copied. -/
theorem CopiedFrom.record_of_mem (h : heap.Regular dict objects) (hx : x ∈ objects)
    (hcopied : CopiedFrom dict heap x.start before records copies) (ho : o ∈ objects)
    {id : RecordId} (hid : copies o.start = some id) :
    ∃ record, records.get? id = some record ∧ record.StandsFor heap o ∧
      record.Filled dict heap copies o o.shape.size := by
  obtain ⟨found, hfound, hstart, hrecord⟩ := h.copiesOf hx hcopied o.start id hid
  rwa [← h.laid.eq_of_start hfound ho hstart]

/-- Two records of one object are alike if their fields read as the same. -/
theorem Record.StandsFor.alike {heap heap' : Heap} {a b : Record} (ha : a.StandsFor heap o)
    (hb : b.StandsFor heap' o) (hheap : heap'.id = heap.id)
    (hfields : ∀ slot < o.shape.size, ∃ value value', a.fields[slot]? = some value ∧
      b.fields[slot]? = some value' ∧ value.same records value' = true) :
    a.Alike records b where
  shape := ha.shape.trans hb.shape.symm
  origin := by rw [ha.origin, hb.origin, hheap]
  fields := by
    rw [ha.shape]
    exact hfields

/-! ## Instructions -/

namespace Exec

variable {call : Caller} {nameWord : Word} {below : Array Word} {m' : Machine}

theorem perform_get (hname : m.run.dict.string nameWord = .ok name)
    (hstack : m.stack = below.push receiver)
    (hread : readField receiver name { m with stack := below } = .ok word { m with stack := below })
    (hroom : below.size < m.stackLimit) :
    perform call (.get nameWord) m = .ok none { m with stack := below.push word } := by
  have hnamed : Exec.name nameWord m = .ok name m := query_of_ok hname
  have hpushed : push word { m with stack := below } = .ok () { m with stack := below.push word } :=
    push_of_room hroom
  exact (bind_of_ok hnamed).trans <| (bind_of_ok (pop_of_push hstack)).trans <|
    (bind_of_ok hread).trans (bind_of_ok hpushed)

theorem perform_put_of_ok (hname : m.run.dict.string nameWord = .ok name)
    (hstack : m.stack = (below.push receiver).push word)
    (hwrite : writeField receiver name word { m with stack := below } = .ok () m') :
    perform call (.put nameWord) m = .ok none m' := by
  have hnamed : Exec.name nameWord m = .ok name m := query_of_ok hname
  exact (bind_of_ok hnamed).trans <| (bind_of_ok (pop_of_push hstack)).trans <|
    (bind_of_ok (pop_of_push rfl)).trans (bind_of_ok hwrite)

theorem perform_put_of_error {stop : Stop} (hname : m.run.dict.string nameWord = .ok name)
    (hstack : m.stack = (below.push receiver).push word)
    (hwrite : writeField receiver name word { m with stack := below } = .error stop m') :
    perform call (.put nameWord) m = .error stop m' := by
  have hnamed : Exec.name nameWord m = .ok name m := query_of_ok hname
  exact (bind_of_ok hnamed).trans <| (bind_of_ok (pop_of_push hstack)).trans <|
    (bind_of_ok (pop_of_push rfl)).trans (bind_of_error hwrite)

end Exec

/-! ## Reading fields -/

namespace Machine

/-- A field is read in the heap as the word, which stands for what the field of the copied record
is; a field that the record does not have is undefined. -/
structure ReadsField (m : Machine) (receiver : Word) (name : String) (word : Word) : Prop where
  read : Exec.readField receiver name m = .ok word m
  pushed : ∀ (call : Caller) (nameWord : Word) (below : Array Word),
    m.run.dict.string nameWord = .ok name → m.stack = below.push receiver →
    below.size < m.stackLimit →
    Exec.perform call (.get nameWord) m = .ok none { m with stack := below.push word }
  agrees : ∀ records, ∃ id copied kept found after,
    decode m.run.dict m.heap receiver records = .ok (.record id) copied ∧
    RunState.readField { m.run with records := copied } (.record id) name = .ok kept ∧
    decode m.run.dict m.heap word copied = .ok found after ∧ found.same after kept = true ∧
    (copied.field? id name = none → found = .undefined)

theorem ReadsField.of_read (hread : ∀ stack,
      Exec.readField receiver name { m with stack } = .ok word { m with stack })
    (hagrees : ∀ records, ∃ id copied kept found after,
      decode m.run.dict m.heap receiver records = .ok (.record id) copied ∧
      RunState.readField { m.run with records := copied } (.record id) name = .ok kept ∧
      decode m.run.dict m.heap word copied = .ok found after ∧ found.same after kept = true ∧
      (copied.field? id name = none → found = .undefined)) : m.ReadsField receiver name word where
  read := hread m.stack
  pushed _ _ below hname hstack hroom := Exec.perform_get hname hstack (hread below) hroom
  agrees := hagrees

end Machine

/-- Where an object is, its field is read as that of the record, and the others are undefined. -/
theorem Machine.exists_readsField (hheap : m.heap.Regular m.run.dict objects)
    (hfirst : m.run.dict.get? 0 = some .undefined) (ho : o ∈ objects)
    (hview : receiver.view = .reference o.start) (name : String) :
    ∃ word, m.ReadsField receiver name word := by
  have hundefined : m.run.dict.value Word.undefined = .ok .undefined :=
    Dictionary.value_eq_ok.mpr ⟨0, by decide, hfirst⟩
  cases hslot : o.shape.slot? name with
  | none =>
    refine ⟨Word.undefined, .of_read (fun stack ↦ ?_) fun records ↦ ?_⟩
    · exact Exec.readField_of_none (m := { m with stack }) hheap.toTiled ho hview hslot
    · obtain ⟨id, copied, copies, hdecode, hid, hcopied⟩ :=
        decode_object_spec hheap ho hview records
      obtain ⟨record, hrecord, hstands, -⟩ := hcopied.record_of_mem hheap ho ho hid
      have hfield : copied.field? id name = none := by
        rw [hstands.field? hrecord, hslot]
        rfl
      refine ⟨id, copied, .undefined, .undefined, copied, hdecode, ?_,
        decode_value hundefined copied, rfl, fun _ ↦ rfl⟩
      unfold RunState.readField
      simp only [hfield]
      rfl
  | some slot =>
    have hlt := Shape.lt_of_slot? hslot
    obtain ⟨word, -, hword⟩ := hheap.readField ho hlt
    refine ⟨word, .of_read (fun stack ↦ ?_) fun records ↦ ?_⟩
    · exact Exec.readField_of_slot (m := { m with stack }) hheap.toTiled ho hview hslot hword
    · obtain ⟨id, copied, copies, hdecode, hid, hcopied⟩ :=
        decode_object_spec hheap ho hview records
      obtain ⟨record, hrecord, hstands, hfilled⟩ := hcopied.record_of_mem hheap ho ho hid
      obtain ⟨_, kept, hword', hkept, hreads⟩ := hfilled slot hlt
      obtain rfl := Option.some.inj (hword.symm.trans hword')
      obtain ⟨found, after, copies', hfound, hkeeps, hreads', hcopies'⟩ :=
        decode_spec hheap (hheap.valid word (Array.mem_of_getElem? hword)) copied
      have hfield : copied.field? id name = some kept := by
        rw [hstands.field? hrecord, hslot]
        exact hkept
      refine ⟨id, copied, kept, found, after, hdecode, ?_, hfound, ?_, ?_⟩
      · unfold RunState.readField
        simp only [hfield]
        rfl
      · exact hreads'.same hreads (fun _ _ ↦ hcopies'.origin?)
          fun _ _ hid ↦ hkeeps.origin? (hcopied.origin? hid)
      · rw [hfield]
        rintro ⟨⟩

/-! ## Writing fields -/

/-- What a write to a field of an object comes to. The heap is regular as before. The records of an
object before and after it are alike, only that the field of this object has the value of the word
instead. Whatever did not lead to the object leads to the same ones as before. -/
structure Heap.Rewritten (heap : Heap) (dict : Dictionary) (objects : List Placed) (o : Placed)
    (slot : Nat) (word : Word) (heap' : Heap) : Prop where
  regular : heap'.Regular dict objects
  copied : ∀ x ∈ objects, ∀ y ∈ objects, ∀ old new : Word, old.view = .reference x.start →
    new.view = .reference y.start → ∀ before, ∃ a kept copies value more b after copies',
      decode dict heap old before = .ok (.record a) kept ∧ copies x.start = some a ∧
      CopiedFrom dict heap x.start before kept copies ∧
      decode dict heap word kept = .ok value more ∧
      decode dict heap' new more = .ok (.record b) after ∧ copies' y.start = some b ∧
      CopiedFrom dict heap' y.start more after copies' ∧
      ∀ p ∈ objects, ∀ id id', copies p.start = some id → copies' p.start = some id' →
        ∃ record record', after.get? id = some record ∧ after.get? id' = some record' ∧
          (if p.start = o.start then record.setSlot slot value else record).Alike after record'
  apart : ∀ x ∈ objects, ¬heap.Reaches dict x.start o.start → ∀ index,
    heap'.Reaches dict x.start index ↔ heap.Reaches dict x.start index

section Write

variable {copies' : Nat → Option RecordId} {p : Placed} {record record' : Record} {value : Value}

/-- The records of an object before and after the write are alike but for the field. -/
theorem Record.alike_setCell (h : heap.Regular dict objects) (ho : o ∈ objects)
    (hslot : slot < o.shape.size) (hp : p ∈ objects)
    (hcopies : ∀ index id, copies index = some id → records.origin? id = some ⟨heap.id, index⟩)
    (hcopies' : ∀ index id, copies' index = some id → records.origin? id = some ⟨heap.id, index⟩)
    {found : Nat → Option RecordId}
    (hfound : ∀ index id, found index = some id → records.origin? id = some ⟨heap.id, index⟩)
    (hvalue : word.Reads dict found value) (hstands : record.StandsFor heap p)
    (hfilled : record.Filled dict heap copies p p.shape.size)
    (hstands' : record'.StandsFor (heap.setCell (o.cell slot) word) p)
    (hfilled' : record'.Filled dict (heap.setCell (o.cell slot) word) copies' p p.shape.size) :
    (if p.start = o.start then record.setSlot slot value else record).Alike records record' := by
  have hkept : ∀ offset < p.shape.size, (p.start = o.start → offset ≠ slot) →
      ∃ kept new, record.fields[offset]? = some kept ∧ record'.fields[offset]? = some new ∧
        kept.same records new = true := by
    intro offset hoffset hne
    obtain ⟨w, kept, hw, hkept, hreads⟩ := hfilled offset hoffset
    obtain ⟨w', new, hw', hnew, hreads'⟩ := hfilled' offset hoffset
    rw [h.field?_setCell_of_ne ho hslot hp hoffset word hne] at hw'
    obtain rfl := Option.some.inj (hw.symm.trans hw')
    exact ⟨kept, new, hkept, hnew, hreads.same hreads' hcopies hcopies'⟩
  by_cases hsame : p.start = o.start
  · obtain rfl := h.laid.eq_of_start hp ho hsame
    rw [if_pos rfl]
    refine (hstands.setSlot slot value).alike hstands' rfl fun offset hoffset ↦ ?_
    have hlt : slot < record.fields.size := hstands.size ▸ hslot
    by_cases heq : offset = slot
    · subst heq
      obtain ⟨w', new, hw', hnew, hreads'⟩ := hfilled' offset hoffset
      rw [h.field?_setCell ho hslot] at hw'
      obtain rfl := Option.some.inj hw'
      exact ⟨value, new, by simp [Record.setSlot, hlt], hnew,
        hvalue.same hreads' hfound hcopies'⟩
    · obtain ⟨kept, new, hkept, hnew, hsame⟩ := hkept offset hoffset fun _ ↦ heq
      refine ⟨kept, new, ?_, hnew, hsame⟩
      simp only [Record.setSlot]
      rwa [Array.getElem?_setIfInBounds_ne (Ne.symm heq)]
  · rw [if_neg hsame]
    exact hstands.alike hstands' rfl fun offset hoffset ↦
      hkept offset hoffset fun heq ↦ absurd heq hsame

theorem Heap.Regular.rewritten (h : heap.Regular dict objects) (ho : o ∈ objects)
    (hslot : slot < o.shape.size) (hword : word.Valid dict objects) :
    heap.Rewritten dict objects o slot word (heap.setCell (o.cell slot) word) where
  regular := h.setCell ho hslot hword
  apart _ hx hapart index := h.reaches_setCell ho hslot hword hx hapart index
  copied x hx y hy old new hold hnew before := by
    have h' := h.setCell ho hslot hword
    obtain ⟨a, kept, copies, hdecode, ha, hcopied⟩ := decode_object_spec h hx hold before
    obtain ⟨value, more, found, hvalue, hkeeps, hreads, hfound⟩ := decode_spec h hword kept
    obtain ⟨b, after, copies', hdecode', hb, hcopied'⟩ := decode_object_spec h' hy hnew more
    refine ⟨a, kept, copies, value, more, b, after, copies', hdecode, ha, hcopied, hvalue, hdecode',
      hb, hcopied', fun p hp id id' hid hid' ↦ ?_⟩
    obtain ⟨record, hrecord, hstands, hfilled⟩ := hcopied.record_of_mem h hx hp hid
    obtain ⟨record', hrecord', hstands', hfilled'⟩ := hcopied'.record_of_mem h' hy hp hid'
    have hafter := hcopied'.kept
    refine ⟨record, record', hafter _ _ (hkeeps _ _ hrecord), hrecord', ?_⟩
    exact Record.alike_setCell h ho hslot hp
      (fun _ _ hid ↦ (hkeeps.trans hafter).origin? (hcopied.origin? hid))
      (fun _ _ hid ↦ hcopied'.origin? hid) (fun _ _ hid ↦ hafter.origin? (hfound.origin? hid))
      hreads hstands hfilled hstands' hfilled'

end Write

namespace Machine

/-- A field is written in the heap as the field of the copied record is. -/
def WritesField (m : Machine) (objects : List Placed) (o : Placed) (receiver : Word) (name : String)
    (word : Word) : Prop :=
  ∀ records, ∃ id copied value more,
    decode m.run.dict m.heap receiver records = .ok (.record id) copied ∧
    decode m.run.dict m.heap word copied = .ok value more ∧
    Ensures (Run.writeField (.record id) name value) { m.run with records := more }
      (fun _ st ↦ ∃ slot heap, st = { m.run with records := more.setSlot id slot value } ∧
        o.shape.slot? name = some slot ∧ m.heap.Rewritten m.run.dict objects o slot word heap ∧
        Exec.writeField receiver name word m = .ok () { m with heap } ∧
        ∀ (call : Caller) (nameWord : Word) (below : Array Word),
          m.run.dict.string nameWord = .ok name → m.stack = (below.push receiver).push word →
          Exec.perform call (.put nameWord) m = .ok none { m with stack := below, heap })
      fun stop _ ↦ stop = .failed ⟨.invalidField name, {}⟩ ∧
        Exec.writeField receiver name word m = .error stop m ∧
        ∀ (call : Caller) (nameWord : Word) (below : Array Word),
          m.run.dict.string nameWord = .ok name → m.stack = (below.push receiver).push word →
          Exec.perform call (.put nameWord) m = .error stop { m with stack := below }

theorem writesField (hheap : m.heap.Regular m.run.dict objects) (ho : o ∈ objects)
    (hview : receiver.view = .reference o.start) (hword : word.Valid m.run.dict objects)
    (name : String) : m.WritesField objects o receiver name word := by
  intro records
  obtain ⟨id, copied, copies, hdecode, hid, hcopied⟩ := decode_object_spec hheap ho hview records
  obtain ⟨value, more, found, hvalue, hkeeps, -⟩ := decode_spec hheap hword copied
  obtain ⟨record, hrecord, hstands, -⟩ := hcopied.record_of_mem hheap ho ho hid
  refine ⟨id, copied, value, more, hdecode, hvalue, ?_⟩
  have hlookup : ((more.get? id).bind fun record ↦ record.shape.slot? name) =
      o.shape.slot? name := by
    rw [hkeeps id record hrecord, ← hstands.shape]
    rfl
  cases hslot : o.shape.slot? name with
  | none =>
    have hwrite (stack : Array Word) : Exec.writeField receiver name word { m with stack } =
        .error (.failed ⟨.invalidField name, {}⟩) { m with stack } :=
      Exec.writeField_of_none (m := { m with stack }) hheap.toTiled ho hview hslot word
    refine .of_error (t := { m.run with records := more }) ?_ ⟨rfl, hwrite m.stack,
      fun _ _ below hname hstack ↦ Exec.perform_put_of_error hname hstack (hwrite below)⟩
    rw [Run.writeField_record, hlookup, hslot]
  | some slot =>
    have hwrite (stack : Array Word) : Exec.writeField receiver name word { m with stack } =
        .ok () { m with stack, heap := m.heap.setCell (o.cell slot) word } :=
      Exec.writeField_of_slot (m := { m with stack }) hheap.toTiled ho hview hslot word
    refine .of_ok (a := ()) (t := { m.run with records := more.setSlot id slot value }) ?_
      ⟨slot, _, rfl, rfl, hheap.rewritten ho (Shape.lt_of_slot? hslot) hword, hwrite m.stack,
        fun _ _ below hname hstack ↦ Exec.perform_put_of_ok hname hstack (hwrite below)⟩
    rw [Run.writeField_record, hlookup, hslot]

end Machine

/-- Fields are read and written in the heap as they are in copies of the objects, for every object
of a regular heap and every valid word. -/
theorem fieldAccess_agrees (hheap : m.heap.Regular m.run.dict objects)
    (hfirst : m.run.dict.get? 0 = some .undefined) (ho : o ∈ objects)
    (hview : receiver.view = .reference o.start) (hword : word.Valid m.run.dict objects)
    (name : String) :
    (∃ found, m.ReadsField receiver name found) ∧ m.WritesField objects o receiver name word :=
  ⟨Machine.exists_readsField hheap hfirst ho hview name,
    Machine.writesField hheap ho hview hword name⟩

/-! A machine with two objects that refer to each other. The second one gets a reference to itself
in a field, and has no field with another name. -/

def ringPair : Machine where
  run := { dict := ⟨#[.undefined, .shape 7 pairShape, .str "left", .str "middle"]⟩ }
  stack := #[⟨16⟩, ⟨16⟩]
  heap := { id := 1, capacity := 16, cells := #[⟨6⟩, .mark, ⟨16⟩, ⟨16⟩, ⟨6⟩, .mark, ⟨0⟩, ⟨10⟩] }
  function := ⟨12, "main", .bytecode default⟩
  code := default

theorem ringPair_regular :
    ringPair.heap.Regular ringPair.run.dict [pairAt 0, pairAt 4] where
  laid := ⟨rfl, rfl, rfl⟩
  header := by
    intro o ho
    have hpair : o = pairAt 0 ∨ o = pairAt 4 := by simpa using ho
    rcases hpair with rfl | rfl <;> exact ⟨⟨6⟩, rfl, rfl⟩
  valid := by decide

theorem ringPair_agrees :
    ringPair.heap.Regular ringPair.run.dict [pairAt 0, pairAt 4] ∧
      ringPair.run.dict.get? 0 = some .undefined ∧ pairAt 4 ∈ [pairAt 0, pairAt 4] ∧
      (⟨16⟩ : Word).view = .reference (pairAt 4).start ∧
      (⟨16⟩ : Word).Valid ringPair.run.dict [pairAt 0, pairAt 4] ∧
      (∃ found, ringPair.ReadsField ⟨16⟩ "left" found) ∧
      ringPair.WritesField [pairAt 0, pairAt 4] (pairAt 4) ⟨16⟩ "left" ⟨16⟩ ∧
      ringPair.WritesField [pairAt 0, pairAt 4] (pairAt 4) ⟨16⟩ "middle" ⟨16⟩ := by
  have hmem : pairAt 4 ∈ [pairAt 0, pairAt 4] := List.mem_cons_of_mem _ (List.mem_singleton.mpr rfl)
  have hview : (⟨16⟩ : Word).view = .reference (pairAt 4).start := by decide
  have hword : (⟨16⟩ : Word).Valid ringPair.run.dict [pairAt 0, pairAt 4] :=
    .of_reference hmem hview
  have hleft := fieldAccess_agrees ringPair_regular rfl hmem hview hword "left"
  have hmiddle := fieldAccess_agrees ringPair_regular rfl hmem hview hword "middle"
  exact ⟨ringPair_regular, rfl, hmem, hview, hword, hleft.1, hleft.2, hmiddle.2⟩

end TandemScript
