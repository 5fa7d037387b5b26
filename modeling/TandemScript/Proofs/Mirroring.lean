import TandemScript.Proofs.Resemblance
import TandemScript.Proofs.Scoping
import TandemScript.Proofs.Soundness

/-!
# Values on the tree and in a machine

What a word of a machine stands for in a run on the tree. The records of that run are mirrored by
the objects of the heap, in the order in which both were made, and its closures by functions that
were compiled from the same literal. Values that a machine decodes look like those of the tree: they
have the same text, and built-in functions cannot tell them apart.
-/

namespace TandemScript

/-- What words and values of a machine refer to, with the activations on the tree. -/
structure World where
  dict : Dictionary
  objects : List Placed
  frames : Frames

/-- Everything of the first world is there in the second one, and at most one activation has
changed. -/
structure World.Extends (changed : Option FrameId) (w w' : World) : Prop where
  dict : w.dict.GrowsTo w'.dict
  objects : w.objects <+: w'.objects
  frames : w.frames.Keeps changed w'.frames

namespace World.Extends

variable {changed : Option FrameId} {w w' w'' : World}

theorem refl (changed : Option FrameId) (w : World) : w.Extends changed w :=
  ⟨.refl _, List.prefix_rfl, .refl _ _⟩

theorem trans (h : w.Extends changed w') (h' : w'.Extends changed w'') : w.Extends changed w'' :=
  ⟨h.dict.trans h'.dict, h.objects.trans h'.objects, h.frames.trans h'.frames⟩

theorem object (h : w.Extends changed w') {index : Nat} {o : Placed}
    (ho : w.objects[index]? = some o) : w'.objects[index]? = some o := by
  obtain ⟨more, hmore⟩ := h.objects
  rw [← hmore, List.getElem?_append_left (List.getElem?_eq_some_iff.mp ho).1]
  exact ho

end World.Extends

/-! ## Functions, words and values -/

/-- A function of the tree that the first function was compiled from, or a built-in function. -/
inductive Function.Renders (p : Program) (w : World) : Function → Function → Prop
  | builtin (op : Builtin) : Renders p w op.function op.function
  | closure {g f : Function} {params : List String} {body : Block} {env : Env}
      {outer : List Shape} :
    f.body = .closure params body env → Builtin.all.length ≤ f.id → p.Defines g →
    body.EmitsFunction p.pool.dict outer f.name params g → w.frames.Match env outer →
    body.isCaptureFree (.ofFunction params body :: outer) = true → Renders p w g f

/-- What a word of a machine stands for on the tree. -/
inductive Word.Stands (p : Program) (w : World) : Word → Value → Prop
  | basic {word : Word} {value : Value} :
    value.IsBasic → w.dict.Denotes word value → Stands p w word value
  | function {word : Word} {g f : Function} :
    w.dict.value word = .ok (.function g) → g.Renders p w f → Stands p w word (.function f)
  | record {word : Word} {id : RecordId} {o : Placed} :
    w.objects[id]? = some o → word.view = .reference o.start → Stands p w word (.record id)

/-- What a value outside the machine stands for on the tree. -/
inductive Value.Mirrors (p : Program) (w : World) (heapId : Nat) (records : Records) :
    Value → Value → Prop
  | basic {value : Value} : value.IsBasic → Mirrors p w heapId records value value
  | function {g f : Function} :
    g.Renders p w f → Mirrors p w heapId records (.function g) (.function f)
  | record {copy id : RecordId} {o : Placed} :
    w.objects[id]? = some o → records.origin? copy = some ⟨heapId, o.start⟩ →
      Mirrors p w heapId records (.record copy) (.record id)

variable {p : Program} {changed : Option FrameId} {w w' : World}

theorem Function.Renders.mono {g f : Function} (h : g.Renders p w f) (hw : w.Extends changed w') :
    g.Renders p w' f := by
  cases h with
  | builtin op => exact .builtin op
  | closure hbody hid hg hemits hmatch hfree =>
    exact .closure hbody hid hg hemits (hmatch.mono hw.frames) hfree

theorem Function.Renders.name_eq {g f : Function} (h : g.Renders p w f) : g.name = f.name := by
  cases h with
  | builtin op => rfl
  | closure _ _ _ hemits _ _ =>
    obtain ⟨instrs, line, fragment, -, -, hg⟩ := hemits.code
    rw [hg]
    rfl

theorem Function.Renders.eq_of_builtin {g : Function} {op : Builtin}
    (h : g.Renders p w op.function) : g = op.function := by
  generalize hf : op.function = f at h
  cases h with
  | builtin op => rfl
  | closure hbody _ _ _ _ _ =>
    rw [← hf] at hbody
    cases hbody

theorem Word.Stands.mono {word : Word} {value : Value} (h : word.Stands p w value)
    (hw : w.Extends changed w') : word.Stands p w' value := by
  cases h with
  | basic hbasic hdenotes => exact .basic hbasic (hdenotes.mono hw.dict)
  | function hword hg => exact .function (hw.dict.value hword) (hg.mono hw)
  | record ho hview => exact .record (hw.object ho) hview

theorem Value.Mirrors.mono {heapId : Nat} {records records' : Records} {found value : Value}
    (h : found.Mirrors p w heapId records value) (hw : w.Extends changed w')
    (hrecords : records.Keeps records') : found.Mirrors p w' heapId records' value := by
  cases h with
  | basic hbasic => exact .basic hbasic
  | function hg => exact .function (hg.mono hw)
  | record ho horigin => exact .record (hw.object ho) (hrecords.origin? horigin)

/-! ## Truth -/

theorem Word.zero_ne_of_view {word : Word} (h : ∀ n, word.view ≠ .small n) : word ≠ Word.zero := by
  rintro rfl
  exact h 0 rfl

theorem Dictionary.value_view {dict : Dictionary} {word : Word} {value : Value}
    (h : dict.value word = .ok value) (n : Nat) : word.view ≠ .small n := by
  obtain ⟨index, hview, -⟩ := Dictionary.value_eq_ok.mp h
  simp [hview]

theorem Word.view_of_ofInt? {n : Int32} {word : Word} (h : Word.ofInt? n = some word) :
    word.view = .small n.toNatClampNeg ∧ Int32.ofNat n.toNatClampNeg = n := by
  unfold ofInt? at h
  split at h
  · cases h
  · next hn =>
    obtain rfl := Option.some.inj h
    have hlt : n.toInt.toNat < 2 ^ 31 := n.toNatClampNeg_lt
    exact ⟨view_small (Nat.lt_of_lt_of_eq hlt rfl),
      Int32.ofNat_toNatClampNeg n (Int32.not_lt.mp hn)⟩

/-- Only the word of the number zero stands for a false value. -/
theorem Word.Stands.eq_zero_iff {word : Word} {value : Value} (h : word.Stands p w value) :
    word = Word.zero ↔ value.isFalse = true := by
  cases h with
  | basic hbasic hdenotes =>
    cases hdenotes with
    | @small n _ hword =>
      obtain ⟨hview, hn⟩ := Word.view_of_ofInt? hword
      have hzero : Word.ofInt? 0 = some Word.zero := rfl
      constructor
      · rintro rfl
        obtain ⟨hview', hn'⟩ := Word.view_of_ofInt? hzero
        rw [hview'] at hview
        have hsame : n = 0 := by
          rw [← hn, ← Word.View.small.inj hview, hn']
        exact decide_eq_true hsame
      · intro h
        have hn : n = 0 := of_decide_eq_true h
        rw [hn] at hword
        exact Option.some.inj (hword.symm.trans hzero)
    | entry hvalue hlarge =>
      refine ⟨fun hzero ↦ absurd hzero (Word.zero_ne_of_view (Dictionary.value_view hvalue)), ?_⟩
      intro h
      cases value with
      | int n =>
        have hn : n = 0 := of_decide_eq_true h
        have hnone := hlarge n rfl
        rw [hn] at hnone
        cases hnone
      | _ => cases h
  | function hword hg =>
    exact ⟨fun hzero ↦ absurd hzero (Word.zero_ne_of_view (Dictionary.value_view hword)),
      fun h ↦ by cases h⟩
  | record ho hview =>
    exact ⟨fun hzero ↦ absurd hzero (Word.zero_ne_of_view (by simp [hview])), fun h ↦ by cases h⟩

/-! ## Records -/

/-- The records of a run on the tree are mirrored by the objects of a heap. -/
structure Records.Mirrored (p : Program) (w : World) (heap : Heap) (records : Records) : Prop where
  size : records.cells.size = w.objects.length
  stands : ∀ (id : RecordId) o record, w.objects[id]? = some o → records.get? id = some record →
    record.shape = o.shape ∧ record.fields.size = o.shape.size ∧ record.origin = none
  field : ∀ (id : RecordId) o record (offset : Nat) word value, w.objects[id]? = some o →
    records.get? id = some record → heap.field? o offset = some word →
      record.fields[offset]? = some value → word.Stands p w value

theorem Dictionary.Denotes.eq_of_reads {dict : Dictionary} {word : Word} {found value : Value}
    {copies : Nat → Option RecordId} (h : dict.Denotes word value)
    (hreads : word.Reads dict copies found) : found = value := by
  unfold Word.Reads at hreads
  cases h with
  | small hword =>
    obtain ⟨hview, hn⟩ := Word.view_of_ofInt? hword
    simp only [hview] at hreads
    rw [hreads, hn]
  | entry hvalue _ =>
    obtain ⟨index, hview, hget⟩ := Dictionary.value_eq_ok.mp hvalue
    simp only [hview] at hreads
    exact Option.some.inj (hreads.symm.trans hget)

/-- What a machine decodes from a word, by what the word stands for on the tree. -/
inductive Value.Copied (p : Program) (w : World) (copies : Nat → Option RecordId) :
    Value → Value → Prop
  | basic {value : Value} : value.IsBasic → Copied p w copies value value
  | function {g f : Function} : g.Renders p w f → Copied p w copies (.function g) (.function f)
  | record {copy id : RecordId} {o : Placed} :
    w.objects[id]? = some o → copies o.start = some copy →
      Copied p w copies (.record copy) (.record id)

theorem Word.Stands.copied {word : Word} {found value : Value} {copies : Nat → Option RecordId}
    (h : word.Stands p w value) (hreads : word.Reads w.dict copies found) :
    found.Copied p w copies value := by
  cases h with
  | basic hbasic hdenotes =>
    rw [hdenotes.eq_of_reads hreads]
    exact .basic hbasic
  | function hword hg =>
    have hdenotes : w.dict.Denotes word (.function _) := .entry hword (by simp)
    rw [hdenotes.eq_of_reads hreads]
    exact .function hg
  | record ho hview =>
    unfold Word.Reads at hreads
    simp only [hview] at hreads
    obtain ⟨copy, hcopy, rfl⟩ := hreads
    exact .record ho hcopy

section Copies

variable {heap : Heap} {records records' : Records} {copies : Nat → Option RecordId}
  (hheap : heap.Sound w.dict w.objects) (hmirrored : records'.Mirrored p w heap)
  (hcopies : CopiesOf w.dict heap w.objects records copies)
include hheap hcopies

/-- The record that was copied from an object. -/
theorem CopiesOf.record {index : Nat} {o : Placed} {copy : RecordId}
    (ho : w.objects[index]? = some o) (hcopy : copies o.start = some copy) :
    ∃ record, records.get? copy = some record ∧ record.StandsFor heap o ∧
      record.Filled w.dict heap copies o o.shape.size := by
  obtain ⟨other, hother, hstart, h⟩ := hcopies o.start copy hcopy
  rwa [← hheap.laid.eq_of_start hother (List.mem_of_getElem? ho) hstart]

theorem Value.Copied.mirrors {found value : Value} (h : found.Copied p w copies value) :
    found.Mirrors p w heap.id records value := by
  cases h with
  | basic hbasic => exact .basic hbasic
  | function hg => exact .function hg
  | record ho hcopy =>
    obtain ⟨record, hrecord, hstands, -⟩ := CopiesOf.record hheap hcopies ho hcopy
    refine .record ho ?_
    unfold Records.origin?
    rw [hrecord]
    exact hstands.origin

include hmirrored

/-- A copy and the record on the tree have fields of the same names, and in them values that stand
for each other. -/
theorem Records.Mirrored.entries {id copy : RecordId} {o : Placed} (ho : w.objects[id]? = some o)
    (hcopy : copies o.start = some copy) :
    ∃ record record', records.get? copy = some record ∧ records'.get? id = some record' ∧
      record.shape = record'.shape ∧ record.fields.size = record'.fields.size ∧
      ∀ (offset : Nat) found value, record.fields[offset]? = some found →
        record'.fields[offset]? = some value → found.Copied p w copies value := by
  obtain ⟨record, hrecord, hstands, hfilled⟩ := CopiesOf.record hheap hcopies ho hcopy
  have hlt : id < records'.cells.size := by
    rw [hmirrored.size]
    exact (List.getElem?_eq_some_iff.mp ho).1
  have hrecord' : records'.get? id = some records'.cells[id] := Array.getElem?_eq_getElem hlt
  obtain ⟨hshape, hsize, -⟩ := hmirrored.stands id o _ ho hrecord'
  refine ⟨record, _, hrecord, hrecord', hstands.shape.trans hshape.symm,
    hstands.size.trans hsize.symm, fun offset found value hfound hvalue ↦ ?_⟩
  have hoffset : offset < o.shape.size := by
    have hlt := (Array.getElem?_eq_some_iff.mp hfound).1
    rwa [hstands.size] at hlt
  obtain ⟨word, other, hword, hother, hreads⟩ := hfilled offset hoffset
  obtain rfl := Option.some.inj (hfound.symm.trans hother)
  exact (hmirrored.field id o _ offset word value ho hrecord' hword hvalue).copied hreads

/-- A copy has the text of the record on the tree. -/
theorem Records.Mirrored.objectText_eq (depth : Nat) {id copy : RecordId} {o : Placed}
    (ho : w.objects[id]? = some o) (hcopy : copies o.start = some copy) :
    records.objectText depth copy = records'.objectText depth id := by
  induction depth generalizing id copy o with
  | zero => rfl
  | succ depth ih =>
    obtain ⟨record, record', hrecord, hrecord', hshape, hsize, hvalues⟩ :=
      Records.Mirrored.entries hheap hmirrored hcopies ho hcopy
    have hfield {found value : Value} (h : found.Copied p w copies value) :
        found.textWith (records.objectText depth) = value.textWith (records'.objectText depth) := by
      cases h with
      | basic hbasic => exact hbasic.textWith_eq _ _
      | function hg => exact congrArg ("function " ++ ·) hg.name_eq
      | record ho hcopy => exact ih ho hcopy
    have hparts : record.entries.map (fun entry ↦
          entry.1 ++ ": " ++ entry.2.textWith (records.objectText depth)) =
        record'.entries.map fun entry ↦
          entry.1 ++ ": " ++ entry.2.textWith (records'.objectText depth) := by
      unfold Record.entries
      rw [hshape]
      refine List.map_zip_congr (by simpa using hsize) fun name index found value hfound hvalue ↦ ?_
      rw [Array.getElem?_toList] at hfound hvalue
      rw [hfield (hvalues index found value hfound hvalue)]
    rw [objectText_succ, objectText_succ, hrecord, hrecord', Option.map_some, Option.map_some,
      Option.getD_some, Option.getD_some, hparts]

theorem Value.Copied.resembles {found value : Value} (h : found.Copied p w copies value) :
    found.Resembles records records' value := by
  cases h with
  | basic hbasic => exact .basic hbasic
  | function hg => exact .function hg.name_eq
  | record ho hcopy =>
    exact .record (Records.Mirrored.objectText_eq hheap hmirrored hcopies textDepth ho hcopy)

/-- What a machine finds for a word mirrors the value on the tree, and looks like it. -/
theorem Word.Stands.decodes {word : Word} {found value : Value} (h : word.Stands p w value)
    (hreads : word.Reads w.dict copies found) :
    found.Mirrors p w heap.id records value ∧ found.Resembles records records' value :=
  ⟨(h.copied hreads).mirrors hheap hcopies, (h.copied hreads).resembles hheap hmirrored hcopies⟩

end Copies

/-- The word of a mirrored value stands for the value. -/
theorem Value.Mirrors.stands {heapId : Nat} {records : Records} {word : Word} {found value : Value}
    (h : found.Mirrors p w heapId records value) (hmeans : word.Means w.dict heapId records found)
    (hentries : ∀ index value, w.dict.get? index = some value → value.Plain p) :
    word.Stands p w value := by
  cases hmeans with
  | plain hdenotes =>
    cases h with
    | basic hbasic => exact .basic hbasic hdenotes
    | function hg =>
      cases hdenotes with
      | entry hvalue _ => exact .function hvalue hg
    | record ho horigin =>
      cases hdenotes with
      | entry hvalue _ =>
        obtain ⟨index, -, hget⟩ := Dictionary.value_eq_ok.mp hvalue
        exact (hentries index _ hget).elim
  | object horigin hview =>
    cases h with
    | basic hbasic => exact hbasic.elim
    | record ho horigin' =>
      have hsame := Option.some.inj (horigin.symm.trans horigin')
      rw [Origin.mk.injEq] at hsame
      exact .record ho (hsame.2 ▸ hview)
  | shape _ =>
    cases h with
    | basic hbasic => exact hbasic.elim

/-! ## Equality -/

/-- A function that the program itself defines. -/
def Value.IsClosure : Value → Bool
  | .function f => match f.body with
    | .closure .. => true
    | _ => false
  | _ => false

theorem Function.Renders.id_eq_iff {g f g' f' : Function} (h : g.Renders p w f)
    (h' : g'.Renders p w f')
    (hwatched : ¬ ((Value.function f).IsClosure = true ∧ (Value.function f').IsClosure = true)) :
    g.id = g'.id ↔ f.id = f'.id := by
  cases h with
  | builtin op =>
    cases h' with
    | builtin op' => exact Iff.rfl
    | closure hbody hid hg hemits hmatch hfree =>
      have hlt := op.id_lt
      have hle := hg.settled.1
      exact ⟨fun heq ↦ by omega, fun heq ↦ by omega⟩
  | closure hbody hid hg hemits hmatch hfree =>
    cases h' with
    | builtin op' =>
      have hlt := op'.id_lt
      have hle := hg.settled.1
      exact ⟨fun heq ↦ by omega, fun heq ↦ by omega⟩
    | closure hbody' hid' hg' hemits' hmatch' hfree' =>
      refine absurd ⟨?_, ?_⟩ hwatched
      · unfold Value.IsClosure
        simp only [hbody]
      · unfold Value.IsClosure
        simp only [hbody']

/-- Records of the tree have no origin. -/
theorem Records.Mirrored.origin?_eq_none {heap : Heap} {records : Records}
    (h : records.Mirrored p w heap) {id : RecordId} {o : Placed} (ho : w.objects[id]? = some o) :
    records.origin? id = none := by
  unfold origin?
  cases hrecord : records.get? id with
  | none => rfl
  | some record => exact (h.stands id o record ho hrecord).2.2

/-- Copies are the same object if and only if the records that they were made for are. -/
theorem Records.Mirrored.sameObject_eq {heap : Heap} {records records' : Records}
    {copy copy' id id' : RecordId} {o o' : Placed} {stop : Nat} (hlaid : LaidOut 0 w.objects stop)
    (hmirrored : records'.Mirrored p w heap) (ho : w.objects[id]? = some o)
    (ho' : w.objects[id']? = some o') (horigin : records.origin? copy = some ⟨heap.id, o.start⟩)
    (horigin' : records.origin? copy' = some ⟨heap.id, o'.start⟩) :
    records.sameObject copy copy' = records'.sameObject id id' := by
  have hstarts : records.sameObject copy copy' = decide (o.start = o'.start) := by
    unfold sameObject
    rw [horigin, horigin']
    by_cases hcopy : copy = copy'
    · subst hcopy
      have hstart := Option.some.inj (horigin.symm.trans horigin')
      rw [Origin.mk.injEq] at hstart
      simp [hstart.2]
    · simp [hcopy]
  have hids : records'.sameObject id id' = decide (id = id') := by
    unfold sameObject
    rw [hmirrored.origin?_eq_none ho]
    exact Bool.or_false _
  have hiff : o.start = o'.start ↔ id = id' := by
    refine ⟨fun hstart ↦ hlaid.index_unique ho ho' hstart, ?_⟩
    rintro rfl
    rw [Option.some.inj (ho.symm.trans ho')]
  calc records.sameObject copy copy' = decide (o.start = o'.start) := hstarts
    _ = decide (id = id') := decide_eq_decide.mpr hiff
    _ = records'.sameObject id id' := hids.symm

/-- Equality finds the same on both sides, unless it compares two functions of the program. -/
theorem Value.Mirrors.same_eq {heap : Heap} {records records' : Records} {a a' b b' : Value}
    {stop : Nat} (hlaid : LaidOut 0 w.objects stop) (hmirrored : records'.Mirrored p w heap)
    (ha : a.Mirrors p w heap.id records a') (hb : b.Mirrors p w heap.id records b')
    (hwatched : ¬ (a'.IsClosure = true ∧ b'.IsClosure = true)) :
    a.same records b = a'.same records' b' := by
  cases ha with
  | basic hbasic =>
    cases hb with
    | basic hbasic' => exact hbasic.same_eq _ _ _
    | function hg =>
      rw [(hbasic.same_eq_false (function_not_basic _) _).1,
        (hbasic.same_eq_false (function_not_basic _) _).1]
    | record ho horigin =>
      rw [(hbasic.same_eq_false (record_not_basic _) _).1,
        (hbasic.same_eq_false (record_not_basic _) _).1]
  | function hg =>
    cases hb with
    | basic hbasic =>
      rw [(hbasic.same_eq_false (function_not_basic _) _).2,
        (hbasic.same_eq_false (function_not_basic _) _).2]
    | function hg' => exact decide_eq_decide.mpr (hg.id_eq_iff hg' hwatched)
    | record ho horigin => rfl
  | record ho horigin =>
    cases hb with
    | basic hbasic =>
      rw [(hbasic.same_eq_false (record_not_basic _) _).2,
        (hbasic.same_eq_false (record_not_basic _) _).2]
    | function hg => rfl
    | record ho' horigin' => exact hmirrored.sameObject_eq hlaid ho ho' horigin horigin'

/-! ## Changing records -/

namespace Records.Mirrored

variable {heap : Heap} {records : Records} {id : RecordId} {o : Placed}

theorem get? (h : records.Mirrored p w heap) (ho : w.objects[id]? = some o) :
    ∃ record, records.get? id = some record ∧ record.shape = o.shape ∧
      record.fields.size = o.shape.size := by
  have hlt : id < records.cells.size := by
    rw [h.size]
    exact (List.getElem?_eq_some_iff.mp ho).1
  have hrecord : records.get? id = some records.cells[id] := Array.getElem?_eq_getElem hlt
  obtain ⟨hshape, hsize, -⟩ := h.stands id o _ ho hrecord
  exact ⟨_, hrecord, hshape, hsize⟩

/-- What is read for a field of an object stands for the field of the record, and where the object
has no such field both are undefined. -/
theorem field?_stands (h : records.Mirrored p w heap) (ho : w.objects[id]? = some o)
    (hundefined : Word.undefined.Stands p w .undefined) {name : String} {found : Word}
    (hfound : match o.shape.slot? name with
      | some offset => heap.field? o offset = some found
      | none => found = Word.undefined) :
    found.Stands p w ((records.field? id name).getD .undefined) := by
  obtain ⟨record, hrecord, hshape, hsize⟩ := h.get? ho
  have hfield : records.field? id name =
      (o.shape.slot? name).bind fun slot ↦ record.fields[slot]? := by
    unfold field?
    rw [hrecord, ← hshape]
    rfl
  rw [hfield]
  cases hslot : o.shape.slot? name with
  | none =>
    simp only [hslot] at hfound
    rw [hfound]
    exact hundefined
  | some slot =>
    simp only [hslot] at hfound
    have hlt : slot < record.fields.size := hsize ▸ Shape.lt_of_slot? hslot
    have hvalue : record.fields[slot]? = some record.fields[slot] := Array.getElem?_eq_getElem hlt
    rw [Option.bind_some, hvalue]
    exact h.field id o record slot found _ ho hrecord hfound hvalue

theorem offset_lt (h : records.Mirrored p w heap) (ho : w.objects[id]? = some o) {record : Record}
    (hrecord : records.get? id = some record) {offset : Nat} {value : Value}
    (hvalue : record.fields[offset]? = some value) : offset < o.shape.size := by
  rw [← (h.stands id o record ho hrecord).2.1]
  exact (Array.getElem?_eq_some_iff.mp hvalue).1

theorem mono (h : records.Mirrored p w heap) (hw : w.Extends changed w')
    (hobjects : w'.objects = w.objects) : records.Mirrored p w' heap where
  size := hobjects ▸ h.size
  stands id o record ho := h.stands id o record (hobjects ▸ ho)
  field id o record offset word value ho hrecord hword hvalue :=
    (h.field id o record offset word value (hobjects ▸ ho) hrecord hword hvalue).mono hw

/-- A field is written on both sides. -/
theorem setSlot (h : records.Mirrored p w heap) (hholds : heap.Holds w.dict w.objects)
    (ho : w.objects[id]? = some o) {offset : Nat} (hoffset : offset < o.shape.size) {word : Word}
    {value : Value} (hword : word.Stands p w value) :
    (records.setSlot id offset value).Mirrored p w (heap.setCell (o.cell offset) word) := by
  have hmem := List.mem_of_getElem? ho
  obtain ⟨record, hrecord, -, hsize⟩ := h.get? ho
  have hself := Records.get?_setSlot hrecord offset value
  refine ⟨?_, ?_, ?_⟩
  · unfold Records.setSlot
    rw [Array.size_modify]
    exact h.size
  · intro other o' record' ho' hrecord'
    by_cases hsame : id = other
    · subst hsame
      obtain rfl := Option.some.inj (hself.symm.trans hrecord')
      obtain ⟨hshape, hsize, horigin⟩ := h.stands id o' record ho' hrecord
      refine ⟨hshape, ?_, horigin⟩
      unfold Record.setSlot
      rw [Array.size_setIfInBounds]
      exact hsize
    · rw [Records.get?_setSlot_ne hsame] at hrecord'
      exact h.stands other o' record' ho' hrecord'
  · intro other o' record' offset' word' value' ho' hrecord' hword' hvalue'
    by_cases hsame : id = other
    · subst hsame
      obtain rfl := Option.some.inj (hself.symm.trans hrecord')
      obtain rfl := Option.some.inj (ho.symm.trans ho')
      unfold Record.setSlot at hvalue'
      by_cases hfield : offset = offset'
      · subst hfield
        rw [hholds.field?_setCell hmem hoffset] at hword'
        rw [Array.getElem?_setIfInBounds_self_of_lt (by omega)] at hvalue'
        obtain rfl := Option.some.inj hword'
        obtain rfl := Option.some.inj hvalue'
        exact hword
      · rw [Array.getElem?_setIfInBounds_ne hfield] at hvalue'
        have hoffset' := h.offset_lt ho hrecord hvalue'
        rw [hholds.field?_setCell_ne ho ho hoffset hoffset' word (.inr hfield)] at hword'
        exact h.field id o record offset' word' value' ho hrecord hword' hvalue'
    · rw [Records.get?_setSlot_ne hsame] at hrecord'
      have hoffset' := h.offset_lt ho' hrecord' hvalue'
      rw [hholds.field?_setCell_ne ho ho' hoffset hoffset' word (.inl hsame)] at hword'
      exact h.field other o' record' offset' word' value' ho' hrecord' hword' hvalue'

/-- An object is made on both sides. -/
theorem add (h : records.Mirrored p w heap) (hholds : heap.Holds w.dict w.objects)
    (hw : w.Extends changed w') {shape : Shape}
    (hobjects : w'.objects = w.objects ++ [⟨heap.used, shape⟩])
    (shapeWord : Word) {words : Array Word} {values : Array Value}
    (hsize : values.size = shape.size)
    (hstands : ∀ (index : Nat) word value, words[index]? = some word →
      values[index]? = some value → word.Stands p w value) :
    (records.add ⟨shape, values, none⟩).2.Mirrored p w' (heap.add shapeWord words) := by
  have hcases {id : Nat} {o : Placed} {record : Record} (ho : w'.objects[id]? = some o)
      (hrecord : (records.add ⟨shape, values, none⟩).2.get? id = some record) :
      w.objects[id]? = some o ∧ records.get? id = some record ∨
        o = ⟨heap.used, shape⟩ ∧ record = ⟨shape, values, none⟩ := by
    rw [hobjects] at ho
    have hcount := h.size
    by_cases hlt : id < w.objects.length
    · rw [List.getElem?_append_left hlt] at ho
      have hold : records.get? id = some records.cells[id] := Array.getElem?_eq_getElem (by omega)
      rw [Records.get?_add hold] at hrecord
      exact .inl ⟨ho, hold.trans hrecord⟩
    · rw [List.getElem?_append_right (Nat.le_of_not_lt hlt)] at ho
      obtain ⟨hid, hnew⟩ := List.getElem?_eq_some_iff.mp ho
      have hid : id = records.cells.size := by
        rw [List.length_singleton] at hid
        omega
      subst hid
      rw [Records.get?_add_new] at hrecord
      refine .inr ⟨?_, (Option.some.inj hrecord).symm⟩
      simpa using hnew.symm
  refine ⟨?_, ?_, ?_⟩
  · unfold Records.add
    rw [Array.size_push, hobjects, List.length_append, h.size]
    rfl
  · intro id o record ho hrecord
    rcases hcases ho hrecord with ⟨ho, hrecord⟩ | ⟨rfl, rfl⟩
    · exact h.stands id o record ho hrecord
    · exact ⟨rfl, hsize, rfl⟩
  · intro id o record offset word value ho hrecord hword hvalue
    rcases hcases ho hrecord with ⟨ho, hrecord⟩ | ⟨rfl, rfl⟩
    · have hoffset := h.offset_lt ho hrecord hvalue
      rw [hholds.field?_add_old (List.mem_of_getElem? ho) hoffset] at hword
      exact (h.field id o record offset word value ho hrecord hword hvalue).mono hw
    · rw [Heap.Holds.field?_add_new] at hword
      exact (hstands offset word value hword hvalue).mono hw

end Records.Mirrored

end TandemScript
