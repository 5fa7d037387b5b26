import TandemScript.Boundary
import TandemScript.Proofs.Computation
import TandemScript.Proofs.Layout

/-!
# Copies of objects

A reference leaves the machine as a copy of everything that can be reached from it, unless something
of this is no object, whatever the other cells of the heap are. While the copy is made, every object
that has a record is either waiting or has all its fields copied; each round takes an object from
those that wait, and no object waits twice. In a regular heap all references lead to objects.
-/

namespace TandemScript

/-! ## Records -/

namespace Records

variable {records : Records} {id : RecordId} {record : Record}

theorem lt_of_get? (h : records.get? id = some record) : id < records.cells.size :=
  (Array.getElem?_eq_some_iff.mp h).1

theorem get?_add (h : records.get? id = some record) (other : Record) :
    (records.add other).2.get? id = some record := by
  have hlt := lt_of_get? h
  unfold get? at h ⊢
  unfold add
  rw [Array.getElem?_push_lt hlt]
  rwa [Array.getElem?_eq_getElem hlt] at h

theorem get?_add_new (records : Records) (record : Record) :
    (records.add record).2.get? records.cells.size = some record := by
  unfold get? add
  exact Array.getElem?_push_size

theorem get?_setSlot (h : records.get? id = some record) (slot : Nat) (value : Value) :
    (records.setSlot id slot value).get? id = some (record.setSlot slot value) := by
  unfold get? setSlot at *
  rw [Array.getElem?_modify, h]
  simp

theorem get?_setSlot_ne {other : RecordId} (hne : other ≠ id) (slot : Nat) (value : Value) :
    (records.setSlot other slot value).get? id = records.get? id := by
  unfold get? setSlot
  rw [Array.getElem?_modify]
  simp [hne]

/-- The second store still has every record of the first one. -/
def Keeps (records records' : Records) : Prop :=
  ∀ id record, records.get? id = some record → records'.get? id = some record

theorem Keeps.refl (records : Records) : records.Keeps records :=
  fun _ _ h ↦ h

theorem Keeps.size_le {records' : Records} (h : records.Keeps records') :
    records.cells.size ≤ records'.cells.size := by
  by_cases hempty : records.cells.size = 0
  · omega
  · have hlast : records.cells.size - 1 < records.cells.size := by omega
    have hlt : records.cells.size - 1 < records'.cells.size :=
      lt_of_get? (h _ _ (Array.getElem?_eq_getElem hlast))
    omega

theorem Keeps.trans {records' records'' : Records} (h : records.Keeps records')
    (h' : records'.Keeps records'') : records.Keeps records'' :=
  fun id record hrecord ↦ h' id record (h id record hrecord)

theorem origin?_of_get? (h : records.get? id = some record) :
    records.origin? id = record.origin := by
  unfold origin?
  rw [h]
  rfl

theorem Keeps.origin? {records' : Records} (h : records.Keeps records') {origin : Origin}
    (horigin : records.origin? id = some origin) : records'.origin? id = some origin := by
  obtain ⟨record, hrecord, horigin⟩ := Option.bind_eq_some_iff.mp horigin
  rw [origin?_of_get? (h id record hrecord)]
  exact horigin

end Records

/-! ## What copies look like -/

/-- What a word means where some objects have been copied into records. -/
def Word.Reads (dict : Dictionary) (copies : Nat → Option RecordId) (word : Word)
    (value : Value) : Prop :=
  match word.view with
  | .small n => value = .int (.ofNat n)
  | .entry index => dict.get? index = some value
  | .reference index => ∃ id, copies index = some id ∧ value = .record id

theorem Word.Reads.mono {dict : Dictionary} {copies copies' : Nat → Option RecordId} {word : Word}
    {value : Value} (h : word.Reads dict copies value)
    (hcopies : ∀ index id, copies index = some id → copies' index = some id) :
    word.Reads dict copies' value := by
  unfold Reads at h ⊢
  cases hview : word.view with
  | small n => simpa only [hview] using h
  | entry index => simpa only [hview] using h
  | reference index =>
    simp only [hview] at h
    obtain ⟨id, hid, hvalue⟩ := h
    exact ⟨id, hcopies index id hid, hvalue⟩

theorem plainValue_of_small {dict : Dictionary} {word : Word} {n : Nat}
    (hview : word.view = .small n) : plainValue dict word = .ok (.int (.ofNat n)) := by
  unfold plainValue Word.asSmall?
  rw [hview]

theorem plainValue_of_value {dict : Dictionary} {word : Word} {value : Value}
    (h : dict.value word = .ok value) : plainValue dict word = .ok value := by
  obtain ⟨index, hview, -⟩ := Dictionary.value_eq_ok.mp h
  unfold plainValue Word.asSmall?
  rw [hview]
  exact h

/-- A word that is no reference has a value, or it names an entry that does not exist. -/
theorem plainValue_cases (dict : Dictionary) {word : Word}
    (hplain : ∀ index, word.view ≠ .reference index) :
    (∃ value, plainValue dict word = .ok value ∧ ∀ copies, word.Reads dict copies value) ∨
      ∃ detail index, plainValue dict word = .error (.inconsistent detail) ∧
        word.view = .entry index ∧ dict.size ≤ index := by
  cases hview : word.view with
  | small n =>
    exact .inl ⟨_, plainValue_of_small hview, fun copies ↦ by unfold Word.Reads; rw [hview]⟩
  | reference index => exact absurd hview (hplain index)
  | entry index =>
    cases hget : dict.get? index with
    | some value =>
      refine .inl ⟨value, plainValue_of_value (Dictionary.value_eq_ok.mpr ⟨index, hview, hget⟩), ?_⟩
      intro copies
      unfold Word.Reads
      rwa [hview]
    | none =>
      refine .inr ⟨.entryOutOfRange index, index, ?_, rfl, Array.getElem?_eq_none_iff.mp hget⟩
      unfold plainValue Word.asSmall? Dictionary.value Word.asEntry?
      simp only [hview, hget]

/-- A word that names no shape is a broken invariant of the machine. -/
theorem Dictionary.shape_error {dict : Dictionary} {word : Word} {failure : Failure}
    (h : dict.shape word = .error failure) : ∃ detail, failure = .inconsistent detail := by
  unfold Dictionary.shape Dictionary.value at h
  cases hindex : word.asEntry? with
  | none =>
    rw [hindex] at h
    exact ⟨_, (Except.error.inj h).symm⟩
  | some index =>
    rw [hindex] at h
    cases hget : dict.get? index with
    | none =>
      simp only [hget] at h
      exact ⟨_, (Except.error.inj h).symm⟩
    | some value =>
      simp only [hget] at h
      cases value with
      | shape id shape => cases h
      | _ => exact ⟨_, (Except.error.inj h).symm⟩

/-! ## Objects that can be copied -/

namespace Heap

/-- The first cell of the object holds the word of its shape. -/
def HasHeader (heap : Heap) (dict : Dictionary) (o : Placed) : Prop :=
  ∃ word, heap.cells[o.start]? = some word ∧ dict.shape word = .ok o.shape

/-- The cells of the object are in use, the first one holds the word of its shape, and the entries
that its fields name are in the dictionary. -/
structure IsWhole (heap : Heap) (dict : Dictionary) (o : Placed) : Prop where
  header : heap.HasHeader dict o
  room : o.stop ≤ heap.used
  entries : ∀ offset < o.shape.size, ∀ word index, heap.field? o offset = some word →
    word.view = .entry index → index < dict.size

/-- Where one reference leads to, through the fields that shapes list. -/
inductive Reaches (heap : Heap) (dict : Dictionary) (root : Nat) : Nat → Prop
  | root : Reaches heap dict root root
  | field {o : Placed} {offset next : Nat} {word : Word} : Reaches heap dict root o.start →
    heap.HasHeader dict o → offset < o.shape.size → heap.field? o offset = some word →
    word.view = .reference next → Reaches heap dict root next

/-- A reference leads to an object with a header. Its fields may lie outside the cells in use. -/
structure Finds (heap : Heap) (dict : Dictionary) (root : Nat) (o : Placed) : Prop where
  reached : heap.Reaches dict root o.start
  header : heap.HasHeader dict o
  room : o.start + headerCells ≤ heap.used

/-- The failure is an inconsistency, and a reference leads to where no whole object is. -/
def Refuses (heap : Heap) (dict : Dictionary) (root : Nat) (failure : Failure) : Prop :=
  (∃ detail, failure = .inconsistent detail) ∧
    ∃ index, heap.Reaches dict root index ∧ ∀ o, o.start = index → ¬heap.IsWhole dict o

variable {heap : Heap} {dict : Dictionary} {root index offset : Nat} {o other : Placed}

theorem HasHeader.unique (h : heap.HasHeader dict o) (h' : heap.HasHeader dict other)
    (hstart : o.start = other.start) : o = other := by
  obtain ⟨word, hword, hshape⟩ := h
  obtain ⟨word', hword', hshape'⟩ := h'
  obtain ⟨start, shape⟩ := o
  obtain ⟨start', shape'⟩ := other
  obtain rfl : start = start' := hstart
  obtain rfl := Option.some.inj (hword.symm.trans hword')
  obtain rfl : shape = shape' := Except.ok.inj (hshape.symm.trans hshape')
  rfl

/-- An object that was found is the only one that there may be at its place. -/
theorem Finds.refuses (h : heap.Finds dict root o) (hbroken : ¬heap.IsWhole dict o)
    (detail : Inconsistency) : heap.Refuses dict root (.inconsistent detail) := by
  refine ⟨⟨detail, rfl⟩, o.start, h.reached, fun other hstart hwhole ↦ hbroken ?_⟩
  rwa [h.header.unique hwhole.header hstart.symm]

/-- There is a header in the cells in use, or there is no object. -/
theorem shapeWord_cases (heap : Heap) (dict : Dictionary) (index : Nat) :
    (∃ shape, (heap.shapeWord index >>= dict.shape) = .ok shape ∧
      heap.HasHeader dict ⟨index, shape⟩ ∧ index + headerCells ≤ heap.used) ∨
    ∃ detail, (heap.shapeWord index >>= dict.shape) = .error (.inconsistent detail) ∧
      ∀ o, o.start = index → ¬heap.IsWhole dict o := by
  by_cases hroom : heap.used < index + headerCells
  · refine .inr ⟨.danglingReference index, ?_, ?_⟩
    · unfold shapeWord object
      rw [if_pos hroom]
      rfl
    · rintro o rfl hwhole
      have hle := hwhole.room
      unfold Placed.stop at hle
      omega
  · have hlt : index < heap.cells.size := by
      unfold used headerCells at hroom
      omega
    have hcell : heap.cells[index]? = some heap.cells[index] := Array.getElem?_eq_getElem hlt
    have hword : (heap.shapeWord index >>= dict.shape) = dict.shape heap.cells[index] := by
      unfold shapeWord object
      rw [if_neg hroom]
      change dict.shape (heap.cells.getD index Word.undefined) = _
      rw [Array.getD_eq_getD_getElem?, hcell]
      rfl
    rw [hword]
    cases hshape : dict.shape heap.cells[index] with
    | ok shape => exact .inl ⟨shape, rfl, ⟨_, hcell, hshape⟩, Nat.le_of_not_lt hroom⟩
    | error failure =>
      obtain ⟨detail, rfl⟩ := Dictionary.shape_error hshape
      refine .inr ⟨detail, rfl, ?_⟩
      rintro o rfl hwhole
      obtain ⟨word, hfound, hok⟩ := hwhole.header
      obtain rfl := Option.some.inj (hcell.symm.trans hfound)
      cases hshape.symm.trans hok

/-- A field of an object with a header is read, or it lies outside the cells in use. -/
theorem readField_cases (hroom : o.start + headerCells ≤ heap.used) (offset : Nat) :
    (∃ word, heap.readField o.start offset = .ok word ∧ heap.field? o offset = some word) ∨
    ∃ detail, heap.readField o.start offset = .error (.inconsistent detail) ∧
      heap.used ≤ o.cell offset := by
  have hobject : heap.object o.start = .ok o.start := if_neg (Nat.not_lt.mpr hroom)
  unfold readField cellOfField
  rw [hobject]
  by_cases hlt : o.cell offset < heap.used
  · have hcell : heap.cells[o.cell offset]? = some heap.cells[o.cell offset] :=
      Array.getElem?_eq_getElem hlt
    refine .inl ⟨_, ?_, hcell⟩
    change (if o.cell offset < heap.used then _ else _) >>= _ = _
    rw [if_pos hlt]
    change Except.ok (heap.cells.getD (o.cell offset) Word.undefined) = _
    rw [Array.getD_eq_getD_getElem?, hcell]
    rfl
  · refine .inr ⟨.fieldOutside offset o.start, ?_, Nat.le_of_not_lt hlt⟩
    change (if o.cell offset < heap.used then _ else _) >>= _ = _
    rw [if_neg hlt]
    rfl

theorem field?_lt {word : Word} (h : heap.field? o offset = some word) :
    o.cell offset < heap.used :=
  (Array.getElem?_eq_some_iff.mp h).1

end Heap

namespace Record

/-- The record has the shape and the origin of an object. -/
structure StandsFor (record : Record) (heap : Heap) (o : Placed) : Prop where
  shape : record.shape = o.shape
  size : record.fields.size = o.shape.size
  origin : record.origin = some ⟨heap.id, o.start⟩

/-- The first fields of the record are those of the object. -/
def Filled (record : Record) (dict : Dictionary) (heap : Heap) (copies : Nat → Option RecordId)
    (o : Placed) (count : Nat) : Prop :=
  ∀ offset < count, ∃ word value, heap.field? o offset = some word ∧
    record.fields[offset]? = some value ∧ word.Reads dict copies value

variable {record : Record} {dict : Dictionary} {heap : Heap} {o : Placed}

theorem StandsFor.setSlot (h : record.StandsFor heap o) (slot : Nat) (value : Value) :
    (record.setSlot slot value).StandsFor heap o :=
  ⟨h.shape, by simpa [Record.setSlot] using h.size, h.origin⟩

theorem StandsFor.origin? (h : record.StandsFor heap o) {records : Records} {id : RecordId}
    (hrecord : records.get? id = some record) :
    records.origin? id = some ⟨heap.id, o.start⟩ :=
  (Records.origin?_of_get? hrecord).trans h.origin

/-- A field of the record is found in the slot that the shape of the object has for it. -/
theorem StandsFor.field? (h : record.StandsFor heap o) {records : Records} {id : RecordId}
    (hrecord : records.get? id = some record) (name : String) :
    records.field? id name = (o.shape.slot? name).bind (record.fields[·]?) := by
  unfold Records.field?
  rw [hrecord, ← h.shape]
  rfl

theorem Filled.mono {copies copies' : Nat → Option RecordId} {count : Nat}
    (h : record.Filled dict heap copies o count)
    (hcopies : ∀ index id, copies index = some id → copies' index = some id) :
    record.Filled dict heap copies' o count := by
  intro offset hoffset
  obtain ⟨word, value, hword, hvalue, hreads⟩ := h offset hoffset
  exact ⟨word, value, hword, hvalue, hreads.mono hcopies⟩

/-- Setting the next field fills one field more. -/
theorem Filled.setSlot {copies : Nat → Option RecordId} {count : Nat}
    (h : record.Filled dict heap copies o count) (hlt : count < record.fields.size)
    {word : Word} {value : Value} (hword : heap.field? o count = some word)
    (hreads : word.Reads dict copies value) :
    (record.setSlot count value).Filled dict heap copies o (count + 1) := by
  intro offset hoffset
  by_cases hlast : offset = count
  · subst hlast
    exact ⟨word, value, hword, by simp [Record.setSlot, hlt], hreads⟩
  · obtain ⟨word', value', hword', hvalue', hreads'⟩ := h offset (by omega)
    refine ⟨word', value', hword', ?_, hreads'⟩
    simp only [Record.setSlot]
    rw [Array.getElem?_setIfInBounds_ne (Ne.symm hlast)]
    exact hvalue'

end Record

/-- Records that stand for objects, with all their fields. -/
def CopiesOf (dict : Dictionary) (heap : Heap) (objects : List Placed) (records : Records)
    (copies : Nat → Option RecordId) : Prop :=
  ∀ index id, copies index = some id → ∃ o ∈ objects, o.start = index ∧
    ∃ record, records.get? id = some record ∧ record.StandsFor heap o ∧
      record.Filled dict heap copies o o.shape.size

/-! ## Making copies -/

/-- An object whose fields were all copied is whole. -/
theorem Heap.Finds.isWhole {heap : Heap} {dict : Dictionary} {root : Nat} {o : Placed}
    (h : heap.Finds dict root o) {record : Record} {copies : Nat → Option RecordId}
    (hfilled : record.Filled dict heap copies o o.shape.size) : heap.IsWhole dict o where
  header := h.header
  room := by
    have hroom := h.room
    unfold Placed.stop
    by_cases hempty : o.shape.size = 0
    · omega
    · obtain ⟨word, -, hword, -⟩ := hfilled (o.shape.size - 1) (by omega)
      have hlt := Heap.field?_lt hword
      unfold Placed.cell at hlt
      omega
  entries offset hoffset word index hword hview := by
    obtain ⟨found, value, hfound, -, hreads⟩ := hfilled offset hoffset
    obtain rfl := Option.some.inj (hword.symm.trans hfound)
    unfold Word.Reads at hreads
    simp only [hview] at hreads
    exact (Array.getElem?_eq_some_iff.mp hreads).1

theorem countP_lt {α : Type} {p q : α → Bool} {l : List α} (hle : ∀ a ∈ l, p a → q a) {a : α}
    (ha : a ∈ l) (hq : q a = true) (hp : p a = false) : l.countP p < l.countP q := by
  induction l with
  | nil => simp at ha
  | cons b rest ih =>
    have hrest : rest.countP p ≤ rest.countP q :=
      List.countP_mono_left fun c hc ↦ hle c (List.mem_cons_of_mem b hc)
    rcases List.mem_cons.mp ha with rfl | hmem
    · rw [List.countP_cons_of_neg (by simp [hp]), List.countP_cons_of_pos hq]
      omega
    · have hlt := ih (fun c hc ↦ hle c (List.mem_cons_of_mem b hc)) hmem
      have hb := hle b (List.mem_cons_self ..)
      rw [List.countP_cons, List.countP_cons]
      by_cases hpb : p b = true
      · rw [if_pos hpb, if_pos (hb hpb)]
        omega
      · rw [if_neg hpb]
        split <;> omega

namespace Copying

/-- The record of each object that has one. -/
def recordOf (st : Copying) (index : Nat) : Option RecordId :=
  st.copies[index]?

/-- How many of the first cells belong to no object that has a record. -/
def unseen (st : Copying) (cells : Nat) : Nat :=
  (List.range cells).countP fun index ↦ (st.recordOf index).isNone

/-- The records that were made stand for different objects that the reference leads to. Each of
these objects is exempt, or it waits, or all its fields are copied. -/
structure Faithful (dict : Dictionary) (heap : Heap) (root : Nat) (before : Records)
    (exempt : Nat → Prop) (st : Copying) : Prop where
  kept : before.Keeps st.records
  stands : ∀ index id, st.recordOf index = some id → ∃ o, o.start = index ∧
    heap.Finds dict root o ∧ before.cells.size ≤ id ∧ ∃ record, st.records.get? id = some record ∧
      record.StandsFor heap o ∧ (exempt index ∨ (∃ waiting ∈ st.pending, waiting.index = index) ∨
        record.Filled dict heap st.recordOf o o.shape.size)
  made : ∀ id, before.cells.size ≤ id → id < st.records.cells.size →
    ∃ index, st.recordOf index = some id
  waiting : ∀ waiting ∈ st.pending, st.recordOf waiting.index = some waiting.record ∧
    ∃ o, o.start = waiting.index ∧ heap.HasHeader dict o ∧ waiting.size = o.shape.size

/-- The second state has everything that the first one has. -/
structure Extends (st st' : Copying) : Prop where
  copies : ∀ index id, st.recordOf index = some id → st'.recordOf index = some id
  records : st.records.Keeps st'.records

theorem Extends.refl (st : Copying) : st.Extends st :=
  ⟨fun _ _ h ↦ h, .refl _⟩

/-- The state after an object was given a record without field values. -/
def withNew (st : Copying) (heap : Heap) (o : Placed) : Copying where
  records := (st.records.add (.unfilled o.shape ⟨heap.id, o.start⟩)).2
  copies := st.copies.insert o.start st.records.cells.size
  pending := ⟨o.start, st.records.cells.size, o.shape.size⟩ :: st.pending

variable {dict : Dictionary} {heap : Heap} {root : Nat} {before : Records} {exempt : Nat → Prop}
  {st : Copying} {o : Placed}

theorem recordOf_withNew (st : Copying) (heap : Heap) (o : Placed) (index : Nat) :
    (st.withNew heap o).recordOf index =
      if o.start = index then some st.records.cells.size else st.recordOf index := by
  unfold recordOf withNew
  simp only [Std.HashMap.getElem?_insert, beq_iff_eq]

theorem extends_withNew (hnew : st.recordOf o.start = none) (heap : Heap) :
    st.Extends (st.withNew heap o) where
  copies index id hid := by
    have hne : o.start ≠ index := by
      rintro rfl
      simp [hnew] at hid
    rw [recordOf_withNew, if_neg hne]
    exact hid
  records _ _ h := Records.get?_add h _

theorem unseen_withNew (hnew : st.recordOf o.start = none) (heap : Heap) {cells : Nat}
    (hlt : o.start < cells) : (st.withNew heap o).unseen cells < st.unseen cells := by
  refine countP_lt (fun index _ hnone ↦ ?_) (List.mem_range.mpr hlt) ?_ ?_
  · rw [recordOf_withNew] at hnone
    split at hnone
    · simp at hnone
    · exact hnone
  · simp [hnew]
  · simp [recordOf_withNew]

theorem Faithful.withNew (h : st.Faithful dict heap root before exempt)
    (ho : heap.Finds dict root o) (hnew : st.recordOf o.start = none) :
    (st.withNew heap o).Faithful dict heap root before exempt where
  kept := h.kept.trans (extends_withNew hnew heap).records
  stands index id hid := by
    rw [recordOf_withNew] at hid
    split at hid
    · next heq =>
      obtain rfl := Option.some.inj hid
      refine ⟨o, heq, ho, h.kept.size_le, _, Records.get?_add_new _ _,
        ⟨rfl, Array.size_replicate, rfl⟩, .inr (.inl ⟨_, List.mem_cons_self .., heq⟩)⟩
    · obtain ⟨other, hstart, hother, hle, record, hrecord, hstands, hdone⟩ := h.stands index id hid
      refine ⟨other, hstart, hother, hle, record, Records.get?_add hrecord _, hstands, ?_⟩
      rcases hdone with hexempt | ⟨waiting, hwaiting, hindex⟩ | hfilled
      · exact .inl hexempt
      · exact .inr (.inl ⟨waiting, List.mem_cons_of_mem _ hwaiting, hindex⟩)
      · exact .inr (.inr (hfilled.mono (extends_withNew hnew heap).copies))
  made id hle hlt := by
    have hsize : (st.withNew heap o).records.cells.size = st.records.cells.size + 1 :=
      Array.size_push _
    by_cases hlast : id = st.records.cells.size
    · exact ⟨o.start, by rw [recordOf_withNew, if_pos rfl, hlast]⟩
    · obtain ⟨index, hindex⟩ := h.made id hle (by omega)
      exact ⟨index, (extends_withNew hnew heap).copies _ _ hindex⟩
  waiting waiting hwaiting := by
    rcases List.mem_cons.mp hwaiting with rfl | hold
    · exact ⟨by simp [recordOf_withNew], o, rfl, ho.header, rfl⟩
    · obtain ⟨hrecord, hobject⟩ := h.waiting waiting hold
      exact ⟨(extends_withNew hnew heap).copies _ _ hrecord, hobject⟩

/-- A record stands for one object only. -/
theorem Faithful.unique (h : st.Faithful dict heap root before exempt) {i j : Nat} {id : RecordId}
    (hi : st.recordOf i = some id) (hj : st.recordOf j = some id) : i = j := by
  obtain ⟨o, rfl, -, -, record, hrecord, hstands, -⟩ := h.stands i id hi
  obtain ⟨other, rfl, -, -, record', hrecord', hstands', -⟩ := h.stands j id hj
  obtain rfl := Option.some.inj (hrecord.symm.trans hrecord')
  have horigin := hstands.origin.symm.trans hstands'.origin
  simpa using horigin

/-- Only a record that stands for an exempt object may change, and only its fields. -/
theorem Faithful.setSlot {id : RecordId} (h : st.Faithful dict heap root before (· = o.start))
    (hid : st.recordOf o.start = some id) (slot : Nat) (value : Value) :
    ({ st with records := st.records.setSlot id slot value } : Copying).Faithful dict heap root
      before (· = o.start) := by
  obtain ⟨_, -, -, hbefore, -⟩ := h.stands _ _ hid
  refine ⟨?_, ?_, ?_, h.waiting⟩
  · intro other record hrecord
    have hlt := Records.lt_of_get? hrecord
    have hne : id ≠ other := by
      rintro rfl
      exact absurd hlt (Nat.not_lt.mpr hbefore)
    rw [Records.get?_setSlot_ne hne]
    exact h.kept other record hrecord
  · intro index other hother
    obtain ⟨o', hstart', ho', hle, record, hrecord, hstands, hdone⟩ := h.stands index other hother
    by_cases hsame : id = other
    · subst hsame
      exact ⟨o', hstart', ho', hle, _, Records.get?_setSlot hrecord slot value,
        hstands.setSlot slot value, .inl (h.unique hother hid)⟩
    · refine ⟨o', hstart', ho', hle, record, ?_, hstands, hdone⟩
      rw [Records.get?_setSlot_ne hsame]
      exact hrecord
  · have hsize : (st.records.setSlot id slot value).cells.size = st.records.cells.size :=
      Array.size_modify
    simp only [hsize]
    exact h.made

/-- An object that no longer waits is exempt. -/
theorem Faithful.take {object : Unfilled} {pending : List Unfilled}
    (h : st.Faithful dict heap root before fun _ ↦ False)
    (hpending : st.pending = object :: pending) (hstart : o.start = object.index) :
    ({ st with pending } : Copying).Faithful dict heap root before (· = o.start) where
  kept := h.kept
  stands index id hid := by
    obtain ⟨o', hstart', ho', hle, record, hrecord, hstands, hdone⟩ := h.stands index id hid
    refine ⟨o', hstart', ho', hle, record, hrecord, hstands, ?_⟩
    rcases hdone with hfalse | ⟨waiting, hwaiting, hindex⟩ | hfilled
    · exact hfalse.elim
    · rw [hpending] at hwaiting
      rcases List.mem_cons.mp hwaiting with rfl | hrest
      · exact .inl (hindex.symm.trans hstart.symm)
      · exact .inr (.inl ⟨waiting, hrest, hindex⟩)
    · exact .inr (.inr hfilled)
  made := h.made
  waiting waiting hwaiting :=
    h.waiting waiting (by rw [hpending]; exact List.mem_cons_of_mem _ hwaiting)

/-- An exempt object need not be exempt any longer once its fields are copied. -/
theorem Faithful.filled {id : RecordId} {record : Record}
    (h : st.Faithful dict heap root before (· = o.start)) (hid : st.recordOf o.start = some id)
    (ho : heap.HasHeader dict o) (hrecord : st.records.get? id = some record)
    (hfilled : record.Filled dict heap st.recordOf o o.shape.size) :
    st.Faithful dict heap root before fun _ ↦ False where
  kept := h.kept
  stands index other hother := by
    obtain ⟨o', hstart, ho', hle, record', hrecord', hstands, hdone⟩ := h.stands index other hother
    refine ⟨o', hstart, ho', hle, record', hrecord', hstands, .inr ?_⟩
    rcases hdone with rfl | hdone
    · obtain rfl := Option.some.inj (hid.symm.trans hother)
      obtain rfl := Option.some.inj (hrecord.symm.trans hrecord')
      obtain rfl := ho.unique ho'.header hstart.symm
      exact .inr hfilled
    · exact hdone
  made := h.made
  waiting := h.waiting

end Copying

/-- The records after a copy are those before it, and one record for each object that the reference
leads to, with all its fields. -/
structure CopiedFrom (dict : Dictionary) (heap : Heap) (root : Nat) (before records : Records)
    (copies : Nat → Option RecordId) : Prop where
  kept : before.Keeps records
  reached : ∀ index, heap.Reaches dict root index ↔ ∃ id, copies index = some id
  unique : ∀ i j id, copies i = some id → copies j = some id → i = j
  made : ∀ id, before.cells.size ≤ id ∧ id < records.cells.size ↔ ∃ index, copies index = some id
  filled : ∀ index id, copies index = some id → ∃ o, o.start = index ∧ heap.IsWhole dict o ∧
    ∃ record, records.get? id = some record ∧ record.StandsFor heap o ∧
      record.Filled dict heap copies o o.shape.size

theorem CopiedFrom.origin? {dict : Dictionary} {heap : Heap} {root : Nat} {before records : Records}
    {copies : Nat → Option RecordId} (h : CopiedFrom dict heap root before records copies)
    {index : Nat} {id : RecordId} (hid : copies index = some id) :
    records.origin? id = some ⟨heap.id, index⟩ := by
  obtain ⟨o, rfl, -, record, hrecord, hstands, -⟩ := h.filled index id hid
  exact hstands.origin? hrecord

section Copy

variable {dict : Dictionary} {heap : Heap} {root : Nat} {before : Records} {exempt : Nat → Prop}
  {st : Copying} {o : Placed}

theorem copyOf_of_some {index : Nat} {id : RecordId} (h : st.recordOf index = some id) :
    copyOf dict heap index st = .ok id st := by
  unfold Copying.recordOf at h
  have hget : (get : Copy Copying) st = .ok st st := rfl
  unfold copyOf
  rw [bind_of_ok hget, h]
  rfl

theorem copyOf_of_none (h : st.recordOf o.start = none)
    (hshape : (heap.shapeWord o.start >>= dict.shape) = .ok o.shape) :
    copyOf dict heap o.start st = .ok st.records.cells.size (st.withNew heap o) := by
  unfold Copying.recordOf at h
  unfold copyOf
  have hget : (get : Copy Copying) st = .ok st st := rfl
  rw [bind_of_ok hget, h]
  exact bind_of_ok (ofExcept_of_ok hshape st)

theorem copyOf_of_error {index : Nat} {failure : Failure} (h : st.recordOf index = none)
    (hshape : (heap.shapeWord index >>= dict.shape) = .error failure) :
    copyOf dict heap index st = .error failure st := by
  unfold Copying.recordOf at h
  unfold copyOf
  have hget : (get : Copy Copying) st = .ok st st := rfl
  have herror : (MonadExcept.ofExcept (heap.shapeWord index >>= dict.shape) : Copy Shape) st =
      .error failure st := by
    rw [hshape]
    rfl
  rw [bind_of_ok hget, h]
  exact bind_of_error herror

/-- What a reference leads to gets a record, unless it has one, and what waits grows no faster than
what was never seen shrinks. -/
theorem copyOf_spec (h : st.Faithful dict heap root before exempt) {index : Nat}
    (hreached : heap.Reaches dict root index) :
    Ensures (copyOf dict heap index) st
      (fun id st' ↦ st'.Faithful dict heap root before exempt ∧ st.Extends st' ∧
        st'.recordOf index = some id ∧
        st'.pending.length + st'.unseen heap.used ≤ st.pending.length + st.unseen heap.used)
      fun failure _ ↦ heap.Refuses dict root failure := by
  cases hcopy : st.recordOf index with
  | some id =>
    exact .of_ok (copyOf_of_some hcopy) ⟨h, .refl st, hcopy, Nat.le_refl _⟩
  | none =>
    rcases heap.shapeWord_cases dict index with
      ⟨shape, hshape, hheader, hroom⟩ | ⟨detail, herror, hbroken⟩
    · have ho : heap.Finds dict root ⟨index, shape⟩ := ⟨hreached, hheader, hroom⟩
      refine .of_ok (copyOf_of_none (o := ⟨index, shape⟩) hcopy hshape)
        ⟨h.withNew ho hcopy, Copying.extends_withNew hcopy heap,
          by simp [Copying.recordOf_withNew], ?_⟩
      have hused : index < heap.used := by
        unfold headerCells at hroom
        omega
      have hlt := Copying.unseen_withNew (o := ⟨index, shape⟩) hcopy heap hused
      have hlength : (st.withNew heap ⟨index, shape⟩).pending.length = st.pending.length + 1 := rfl
      omega
    · exact .of_error (copyOf_of_error hcopy herror) ⟨⟨detail, rfl⟩, index, hreached, hbroken⟩

/-- The word in a field is read as it stands, or the object that it refers to gets a record. -/
theorem copyWord_spec (h : st.Faithful dict heap root before exempt)
    (ho : heap.Finds dict root o) {offset : Nat} (hoffset : offset < o.shape.size) {word : Word}
    (hword : heap.field? o offset = some word) :
    Ensures (copyWord dict heap word) st
      (fun value st' ↦ st'.Faithful dict heap root before exempt ∧ st.Extends st' ∧
        word.Reads dict st'.recordOf value ∧
        st'.pending.length + st'.unseen heap.used ≤ st.pending.length + st.unseen heap.used)
      fun failure _ ↦ heap.Refuses dict root failure := by
  unfold copyWord
  split
  · next index hview =>
    have hreached := Heap.Reaches.field ho.reached ho.header hoffset hword hview
    refine Ensures.bind (copyOf_spec h hreached) ?_
    rintro id st' ⟨hst', hextends, hid, hle⟩
    refine .pure ⟨hst', hextends, ?_, hle⟩
    unfold Word.Reads
    rw [hview]
    exact ⟨id, hid, rfl⟩
  · next hplain =>
    rcases plainValue_cases dict hplain with
      ⟨value, hvalue, hreads⟩ | ⟨detail, index, herror, hview, hle⟩
    · exact .of_ok (ofExcept_of_ok hvalue st) ⟨h, .refl st, hreads _, Nat.le_refl _⟩
    · rw [herror]
      refine .of_error rfl (ho.refuses (fun hwhole ↦ ?_) detail)
      exact absurd (hwhole.entries offset hoffset word index hword hview) (Nat.not_lt.mpr hle)

/-- The fields from an offset on are copied, and then the object is done. -/
theorem copyFields_spec (ho : heap.Finds dict root o) {object : Unfilled}
    (hindex : object.index = o.start) (count offset : Nat)
    (hcount : offset + count = o.shape.size) {st : Copying} {record : Record}
    (h : st.Faithful dict heap root before (· = o.start))
    (hid : st.recordOf o.start = some object.record)
    (hrecord : st.records.get? object.record = some record)
    (hstands : record.StandsFor heap o)
    (hfilled : record.Filled dict heap st.recordOf o offset) :
    Ensures (copyFields dict heap object offset count) st
      (fun _ st' ↦ st'.Faithful dict heap root before (fun _ ↦ False) ∧
        (∀ index id, st.recordOf index = some id → st'.recordOf index = some id) ∧
        st'.pending.length + st'.unseen heap.used ≤ st.pending.length + st.unseen heap.used)
      fun failure _ ↦ heap.Refuses dict root failure := by
  induction count generalizing offset st record with
  | zero =>
    obtain rfl : offset = o.shape.size := hcount
    exact .pure ⟨h.filled hid ho.header hrecord hfilled, fun _ _ h ↦ h, Nat.le_refl _⟩
  | succ count ih =>
    have hlt : offset < o.shape.size := by omega
    unfold copyFields
    rw [hindex]
    rcases Heap.readField_cases ho.room offset with ⟨word, hread, hword⟩ | ⟨detail, herror, hused⟩
    · refine Ensures.bind_ok (ofExcept_of_ok hread st) ?_
      refine Ensures.bind (copyWord_spec h ho hlt hword) ?_
      rintro value st₁ ⟨h₁, hextends, hreads, hle⟩
      have hid₁ := hextends.copies _ _ hid
      have hrecord₁ := hextends.records _ _ hrecord
      refine Ensures.bind (P := fun _ st' ↦
        st' = { st₁ with records := st₁.records.setSlot object.record offset value })
        (.of_ok rfl rfl) ?_
      rintro _ _ rfl
      have hfilled₁ := (hfilled.mono hextends.copies).setSlot (hstands.size ▸ hlt) hword hreads
      refine (ih (offset + 1) (by omega) (h₁.setSlot hid₁ offset value) hid₁
        (Records.get?_setSlot hrecord₁ offset value) (hstands.setSlot offset value) hfilled₁).mono
        ?_ fun _ _ h ↦ h
      rintro _ st' ⟨hst', hcopies, hle'⟩
      exact ⟨hst', fun index id hid ↦ hcopies index id (hextends.copies index id hid),
        Nat.le_trans hle' hle⟩
    · rw [herror]
      refine .of_error rfl (ho.refuses (fun hwhole ↦ ?_) detail)
      have hroom := hwhole.room
      unfold Placed.stop at hroom
      unfold Placed.cell at hused
      omega

/-- Every round takes one object from those that wait, so that as many rounds as cells are
enough. -/
theorem copyPending_spec (rounds : Nat) {st : Copying}
    (h : st.Faithful dict heap root before fun _ ↦ False)
    (hrounds : st.pending.length + st.unseen heap.used ≤ rounds) :
    Ensures (copyPending dict heap rounds) st
      (fun _ st' ↦ st'.Faithful dict heap root before (fun _ ↦ False) ∧ st'.pending = [] ∧
        ∀ index id, st.recordOf index = some id → st'.recordOf index = some id)
      fun failure _ ↦ heap.Refuses dict root failure := by
  induction rounds generalizing st with
  | zero => exact .pure ⟨h, List.eq_nil_of_length_eq_zero (by omega), fun _ _ h ↦ h⟩
  | succ rounds ih =>
    unfold copyPending
    refine Ensures.bind (P := fun found t ↦ found = st ∧ t = st) (.of_ok rfl ⟨rfl, rfl⟩) ?_
    rintro _ t ⟨rfl, rfl⟩
    split
    · next hpending => exact .pure ⟨h, hpending, fun _ _ h ↦ h⟩
    · next object pending hpending =>
      obtain ⟨hid, o, hstart, hheader, hsize⟩ := h.waiting object (by simp [hpending])
      rw [← hstart] at hid
      obtain ⟨o', hstart', ho, -, record, hrecord, hstands, -⟩ := h.stands _ _ hid
      obtain rfl := hheader.unique ho.header hstart'.symm
      refine Ensures.bind (P := fun _ t' ↦ t' = { t with pending }) (.of_ok rfl rfl) ?_
      rintro _ _ rfl
      have hlength : t.pending.length = pending.length + 1 := by rw [hpending]; rfl
      have hunseen : ({ t with pending } : Copying).unseen heap.used = t.unseen heap.used := rfl
      rw [hsize]
      refine Ensures.bind (copyFields_spec ho hstart.symm o.shape.size 0 (Nat.zero_add _)
        (h.take hpending hstart) hid hrecord hstands (by intro _ h; omega)) ?_
      rintro _ t' ⟨ht', hcopies, hle⟩
      refine (ih ht' ?_).mono ?_ fun _ _ h ↦ h
      · simp only [hunseen] at hle
        omega
      · rintro _ t'' ⟨ht'', hnone, hcopies'⟩
        exact ⟨ht'', hnone, fun index id hid ↦ hcopies' index id (hcopies index id hid)⟩

/-- When nothing waits any longer, everything that the reference leads to was copied. -/
theorem Copying.Faithful.copiedFrom (h : st.Faithful dict heap root before fun _ ↦ False)
    (hnone : st.pending = []) {id : RecordId} (hroot : st.recordOf root = some id) :
    CopiedFrom dict heap root before st.records st.recordOf := by
  have hdone : ∀ index id, st.recordOf index = some id → ∃ o, o.start = index ∧
      heap.Finds dict root o ∧ before.cells.size ≤ id ∧ ∃ record,
        st.records.get? id = some record ∧ record.StandsFor heap o ∧
        record.Filled dict heap st.recordOf o o.shape.size := by
    intro index id hid
    obtain ⟨o, hstart, ho, hle, record, hrecord, hstands, hfalse | ⟨_, hwaiting, -⟩ | hfilled⟩ :=
      h.stands index id hid
    · exact hfalse.elim
    · simp [hnone] at hwaiting
    · exact ⟨o, hstart, ho, hle, record, hrecord, hstands, hfilled⟩
  refine ⟨h.kept, fun index ↦ ⟨fun hreached ↦ ?_, ?_⟩, fun i j id hi hj ↦ h.unique hi hj,
    fun id ↦ ⟨fun hid ↦ h.made id hid.1 hid.2, ?_⟩, ?_⟩
  · -- Along the way from the root, each object has a record whose fields were read.
    induction hreached with
    | root => exact ⟨id, hroot⟩
    | @field o offset next word _ hheader hoffset hword hview ih =>
      obtain ⟨id, hid⟩ := ih
      obtain ⟨o', hstart, ho', -, record, -, -, hfilled⟩ := hdone _ id hid
      obtain rfl := hheader.unique ho'.header hstart.symm
      obtain ⟨found, value, hfound, -, hreads⟩ := hfilled offset hoffset
      obtain rfl := Option.some.inj (hword.symm.trans hfound)
      unfold Word.Reads at hreads
      simp only [hview] at hreads
      obtain ⟨copy, hcopy, -⟩ := hreads
      exact ⟨copy, hcopy⟩
  · rintro ⟨id, hid⟩
    obtain ⟨o, rfl, ho, -⟩ := hdone index id hid
    exact ho.reached
  · rintro ⟨index, hid⟩
    obtain ⟨o, -, -, hle, record, hrecord, -⟩ := hdone index id hid
    exact ⟨hle, Records.lt_of_get? hrecord⟩
  · intro index id hid
    obtain ⟨o, hstart, ho, -, record, hrecord, hstands, hfilled⟩ := hdone index id hid
    exact ⟨o, hstart, ho.isWhole hfilled, record, hrecord, hstands, hfilled⟩

/-- At first only the object that the reference refers to waits. -/
theorem copyOf_root_spec (dict : Dictionary) (heap : Heap) (root : Nat) (before : Records) :
    Ensures (copyOf dict heap root) { records := before }
      (fun id st ↦ st.Faithful dict heap root before (fun _ ↦ False) ∧
        st.recordOf root = some id ∧ st.pending.length + st.unseen heap.used ≤ heap.used)
      fun failure _ ↦ heap.Refuses dict root failure := by
  have hstart : ({ records := before } : Copying).Faithful dict heap root before
      fun _ ↦ False :=
    ⟨.refl before, by simp [Copying.recordOf], fun _ hle hlt ↦ absurd hlt (Nat.not_lt.mpr hle),
      by simp⟩
  refine (copyOf_spec hstart .root).mono ?_ fun _ _ h ↦ h
  rintro id st ⟨hst, -, hid, hle⟩
  refine ⟨hst, hid, ?_⟩
  have hcount : ({ records := before } : Copying).unseen heap.used ≤ heap.used :=
    Nat.le_trans List.countP_le_length (Nat.le_of_eq List.length_range)
  have hempty : ({ records := before } : Copying).pending.length = 0 := rfl
  omega

/-- A reference leaves as the record of an object, among those of all objects that it leads to,
unless it leads to where no whole object is. -/
theorem copyOut_spec (dict : Dictionary) (heap : Heap) (root : Nat) (before : Records) :
    Ensures (copyOut dict heap root) { records := before }
      (fun value st ↦ st.pending = [] ∧ ∃ id, value = .record id ∧ st.recordOf root = some id ∧
        CopiedFrom dict heap root before st.records st.recordOf)
      fun failure _ ↦ heap.Refuses dict root failure := by
  refine Ensures.bind (copyOf_root_spec dict heap root before) ?_
  rintro id st ⟨hst, hid, hrounds⟩
  refine Ensures.bind (copyPending_spec heap.used hst hrounds) ?_
  rintro _ st' ⟨hst', hnone, hcopies⟩
  have hroot := hcopies _ _ hid
  exact .pure ⟨hnone, id, rfl, hroot, hst'.copiedFrom hnone hroot⟩

theorem decode_of_plain {word : Word} (hplain : ∀ index, word.view ≠ .reference index) :
    decode dict heap word = MonadExcept.ofExcept (plainValue dict word) := by
  unfold decode
  cases hview : word.view with
  | reference index => exact absurd hview (hplain index)
  | _ => rfl

/-- What decoding a reference comes to. -/
theorem decode_reference_spec (dict : Dictionary) (heap : Heap) {word : Word} {index : Nat}
    (hview : word.view = .reference index) (before : Records) :
    Ensures (decode dict heap word) before
      (fun value records ↦ ∃ id copies, value = .record id ∧ copies index = some id ∧
        CopiedFrom dict heap index before records copies)
      fun failure _ ↦ heap.Refuses dict index failure := by
  have hcopy := copyOut_spec dict heap index before
  unfold Ensures at hcopy ⊢
  unfold decode
  rw [hview]
  simp only
  cases hout : copyOut dict heap index { records := before } with
  | ok value st =>
    rw [hout] at hcopy
    obtain ⟨-, id, hvalue, hid, hcopied⟩ := hcopy
    exact ⟨id, st.recordOf, hvalue, hid, hcopied⟩
  | error failure st =>
    rw [hout] at hcopy
    exact hcopy

end Copy

/-! ## Copies from a regular heap -/

section Regular

variable {dict : Dictionary} {heap : Heap} {objects : List Placed} {o : Placed}

namespace Heap.Regular

theorem isWhole (h : heap.Regular dict objects) (ho : o ∈ objects) : heap.IsWhole dict o where
  header := h.header o ho
  room := h.laid.stop_le ho
  entries offset _ word index hword hview := by
    have hvalid := h.valid word (Array.mem_of_getElem? hword)
    unfold Word.Valid at hvalid
    simpa only [hview] using hvalid

/-- References to objects only lead to objects. -/
theorem mem_of_reaches (h : heap.Regular dict objects) (ho : o ∈ objects) {index : Nat}
    (hreached : heap.Reaches dict o.start index) : ∃ other ∈ objects, other.start = index := by
  cases hreached with
  | root => exact ⟨o, ho, rfl⟩
  | field _ _ _ hword hview =>
    have hvalid := h.valid _ (Array.mem_of_getElem? hword)
    unfold Word.Valid at hvalid
    simpa only [hview] using hvalid

theorem not_refuses (h : heap.Regular dict objects) (ho : o ∈ objects) (failure : Failure) :
    ¬heap.Refuses dict o.start failure := by
  rintro ⟨-, index, hreached, hbroken⟩
  obtain ⟨other, hother, hstart⟩ := h.mem_of_reaches ho hreached
  exact hbroken other hstart (h.isWhole hother)

theorem copiesOf (h : heap.Regular dict objects) (ho : o ∈ objects) {before records : Records}
    {copies : Nat → Option RecordId}
    (hcopied : CopiedFrom dict heap o.start before records copies) :
    CopiesOf dict heap objects records copies := by
  intro index id hid
  obtain ⟨found, hstart, hwhole, hrecord⟩ := hcopied.filled index id hid
  obtain ⟨other, hother, hstart'⟩ :=
    h.mem_of_reaches ho ((hcopied.reached index).mpr ⟨id, hid⟩)
  obtain rfl := hwhole.header.unique (h.header other hother) (hstart.trans hstart'.symm)
  exact ⟨found, hother, hstart, hrecord⟩

end Heap.Regular

/-- A valid word that is no reference has a value. -/
theorem plainValue_spec {word : Word} (h : word.Valid dict objects)
    (hplain : ∀ index, word.view ≠ .reference index) :
    ∃ value, plainValue dict word = .ok value ∧ ∀ copies, word.Reads dict copies value := by
  rcases plainValue_cases dict hplain with hvalue | ⟨detail, index, -, hview, hle⟩
  · exact hvalue
  · unfold Word.Valid at h
    simp only [hview] at h
    exact absurd h (Nat.not_lt.mpr hle)

/-- A reference to an object of a regular heap leaves as a copy of what it leads to. -/
theorem decode_object_spec (hheap : heap.Regular dict objects) (ho : o ∈ objects) {word : Word}
    (hview : word.view = .reference o.start) (before : Records) :
    ∃ id records copies, decode dict heap word before = .ok (.record id) records ∧
      copies o.start = some id ∧ CopiedFrom dict heap o.start before records copies := by
  have hspec := decode_reference_spec dict heap hview before
  unfold Ensures at hspec
  cases hdecode : decode dict heap word before with
  | error failure records =>
    rw [hdecode] at hspec
    exact (hheap.not_refuses ho failure hspec).elim
  | ok value records =>
    rw [hdecode] at hspec
    obtain ⟨id, copies, rfl, hid, hcopied⟩ := hspec
    exact ⟨id, records, copies, rfl, hid, hcopied⟩

/-- Every valid word of a regular heap has a value, and decoding it only adds records. -/
theorem decode_spec (hheap : heap.Regular dict objects) {word : Word}
    (hvalid : word.Valid dict objects) (before : Records) :
    ∃ value records copies, decode dict heap word before = .ok value records ∧
      before.Keeps records ∧ word.Reads dict copies value ∧
      CopiesOf dict heap objects records copies := by
  by_cases hplain : ∀ index, word.view ≠ .reference index
  · obtain ⟨value, hvalue, hreads⟩ := plainValue_spec hvalid hplain
    refine ⟨value, before, fun _ ↦ none, ?_, .refl before, hreads _, fun _ _ h ↦ by simp at h⟩
    rw [decode_of_plain hplain]
    exact ofExcept_of_ok hvalue before
  · obtain ⟨index, hview⟩ := Classical.not_forall.mp hplain
    have hview := Classical.not_not.mp hview
    unfold Word.Valid at hvalid
    simp only [hview] at hvalid
    obtain ⟨o, ho, rfl⟩ := hvalid
    obtain ⟨id, records, copies, hdecode, hid, hcopied⟩ :=
      decode_object_spec hheap ho hview before
    refine ⟨.record id, records, copies, hdecode, hcopied.kept, ?_, hheap.copiesOf ho hcopied⟩
    unfold Word.Reads
    rw [hview]
    exact ⟨id, hid, rfl⟩

end Regular

end TandemScript
