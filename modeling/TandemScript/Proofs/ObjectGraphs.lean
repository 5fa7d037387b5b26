import TandemScript.Proofs.RoundTrip

/-!
# Copies of object graphs

A heap may have cycles, objects may be shared, and its cells may hold anything. Copying what a
reference leads to ends after as many rounds as there are cells in use, however many objects wait.
It succeeds if all of this is whole, and then there is one record for each object.
-/

namespace TandemScript

/-! ## The end of the worklist -/

section Rounds

variable {dict : Dictionary} {heap : Heap} {rounds more : Nat}

/-- Once nothing waits, or copying has failed, more rounds change nothing. -/
theorem copyPending_of_le (hle : rounds ≤ more) {st : Copying}
    (h : Ensures (copyPending dict heap rounds) st (fun _ st' ↦ st'.pending = []) fun _ _ ↦ True) :
    copyPending dict heap more st = copyPending dict heap rounds st := by
  have hget (s : Copying) : (get : Copy Copying) s = .ok s s := rfl
  induction rounds generalizing more st with
  | zero =>
    have hnone : st.pending = [] := h
    cases more with
    | zero => rfl
    | succ more =>
      unfold copyPending
      rw [bind_of_ok (hget st), hnone]
  | succ rounds ih =>
    obtain ⟨more, rfl⟩ : ∃ n, more = n + 1 := ⟨more - 1, by omega⟩
    unfold copyPending at h ⊢
    unfold Ensures at h
    rw [bind_of_ok (hget st)] at h ⊢
    rw [bind_of_ok (hget st)]
    cases hpending : st.pending with
    | nil => rfl
    | cons object pending =>
      simp only [hpending] at h ⊢
      have hmodify : (modify fun state ↦ { state with pending } : Copy Unit) st =
          .ok () { st with pending } := rfl
      rw [bind_of_ok hmodify] at h ⊢
      rw [bind_of_ok hmodify]
      cases hfields : copyFields dict heap object 0 object.size { st with pending } with
      | error failure st' => rw [bind_of_error hfields, bind_of_error hfields]
      | ok _ st' =>
        rw [bind_of_ok hfields] at h ⊢
        rw [bind_of_ok hfields]
        exact ih (by omega) h

/-- The copy of what a reference leads to, in so many rounds. -/
def copyWithin (dict : Dictionary) (heap : Heap) (root rounds : Nat) : Copy Value := do
  let record ← copyOf dict heap root
  copyPending dict heap rounds
  return .record record

/-- The cells in use bound the rounds that there are, however many there may be. -/
theorem copyWithin_eq (dict : Dictionary) (heap : Heap) (root : Nat) (before : Records)
    (hrounds : heap.used ≤ rounds) :
    copyWithin dict heap root rounds { records := before } =
      copyOut dict heap root { records := before } := by
  have hroot := copyOf_root_spec dict heap root before
  unfold Ensures at hroot
  unfold copyWithin copyOut
  cases hcopy : copyOf dict heap root { records := before } with
  | error failure st => rw [bind_of_error hcopy, bind_of_error hcopy]
  | ok record st =>
    rw [hcopy] at hroot
    obtain ⟨hst, -, hwaiting⟩ := hroot
    have hends : Ensures (copyPending dict heap heap.used) st (fun _ st' ↦ st'.pending = [])
        fun _ _ ↦ True :=
      (copyPending_spec heap.used hst hwaiting).mono (fun _ _ h ↦ h.2.1) fun _ _ _ ↦ trivial
    rw [bind_of_ok hcopy, bind_of_ok hcopy]
    simp only [bind, EStateM.bind, copyPending_of_le hrounds hends]

end Rounds

/-! ## What is copied -/

/-- Everything that the reference leads to is a whole object. -/
def Heap.WholeFrom (heap : Heap) (dict : Dictionary) (root : Nat) : Prop :=
  ∀ index, heap.Reaches dict root index → ∃ o, o.start = index ∧ heap.IsWhole dict o

theorem Heap.Refuses.not_wholeFrom {heap : Heap} {dict : Dictionary} {root : Nat}
    {failure : Failure} (h : heap.Refuses dict root failure) : ¬heap.WholeFrom dict root := by
  obtain ⟨-, index, hreached, hbroken⟩ := h
  intro hwhole
  obtain ⟨o, hstart, ho⟩ := hwhole index hreached
  exact hbroken o hstart ho

theorem CopiedFrom.wholeFrom {dict : Dictionary} {heap : Heap} {root : Nat}
    {before after : Records} {copies : Nat → Option RecordId}
    (h : CopiedFrom dict heap root before after copies) : heap.WholeFrom dict root := by
  intro index hreached
  obtain ⟨id, hid⟩ := (h.reached index).mp hreached
  obtain ⟨o, hstart, ho, -⟩ := h.filled index id hid
  exact ⟨o, hstart, ho⟩

/-- Two references read as the same record if they are the same reference. -/
theorem CopiedFrom.reads_eq_iff {dict : Dictionary} {heap : Heap} {root : Nat}
    {before after : Records} {copies : Nat → Option RecordId}
    (h : CopiedFrom dict heap root before after copies) {word word' : Word} {i j : Nat}
    {value value' : Value} (hi : word.view = .reference i) (hj : word'.view = .reference j)
    (hvalue : word.Reads dict copies value) (hvalue' : word'.Reads dict copies value') :
    value = value' ↔ word = word' := by
  unfold Word.Reads at hvalue hvalue'
  simp only [hi, hj] at hvalue hvalue'
  obtain ⟨id, hid, rfl⟩ := hvalue
  obtain ⟨id', hid', rfl⟩ := hvalue'
  constructor
  · intro heq
    obtain rfl := Value.record.inj heq
    obtain rfl := h.unique i j id hid hid'
    exact Option.some.inj ((Word.reference?_of_view hi).symm.trans (Word.reference?_of_view hj))
  · rintro rfl
    obtain rfl := Word.View.reference.inj (hi.symm.trans hj)
    rw [Option.some.inj (hid.symm.trans hid')]

/-- What decoding a reference comes to in any heap. It ends within as many rounds as cells are in
use, and succeeds if everything that the reference leads to is whole. Then there is one new record
for each object, which has its shape, its origin and what its fields read as; two references read as
the same record if they are the same reference. Otherwise it fails with an inconsistency. -/
theorem decode_copies_graph (dict : Dictionary) (heap : Heap) {word : Word} {root : Nat}
    (hview : word.view = .reference root) (before : Records) :
    (∀ rounds, heap.used ≤ rounds → copyWithin dict heap root rounds { records := before } =
        copyOut dict heap root { records := before }) ∧
      (∀ value st, copyOut dict heap root { records := before } = .ok value st →
        st.pending = []) ∧
      ((∃ value after, decode dict heap word before = .ok value after) ↔
        heap.WholeFrom dict root) ∧
      (∀ value after, decode dict heap word before = .ok value after → ∃ id copies,
        value = .record id ∧ copies root = some id ∧ CopiedFrom dict heap root before after copies ∧
          ∀ (w w' : Word) (i j : Nat) (v v' : Value), w.view = .reference i →
            w'.view = .reference j → w.Reads dict copies v → w'.Reads dict copies v' →
            (v = v' ↔ w = w')) ∧
      ∀ failure after, decode dict heap word before = .error failure after →
        ∃ detail, failure = .inconsistent detail := by
  have hspec := decode_reference_spec dict heap hview before
  refine ⟨fun rounds hrounds ↦ copyWithin_eq dict heap root before hrounds, ?_, ⟨?_, ?_⟩, ?_, ?_⟩
  · intro value st hok
    have hout := copyOut_spec dict heap root before
    unfold Ensures at hout
    rw [hok] at hout
    exact hout.1
  · rintro ⟨value, after, hok⟩
    unfold Ensures at hspec
    rw [hok] at hspec
    obtain ⟨id, copies, -, -, hcopied⟩ := hspec
    exact hcopied.wholeFrom
  · intro hwhole
    unfold Ensures at hspec
    cases hdecode : decode dict heap word before with
    | ok value after => exact ⟨value, after, rfl⟩
    | error failure after =>
      rw [hdecode] at hspec
      exact (hspec.not_wholeFrom hwhole).elim
  · intro value after hok
    unfold Ensures at hspec
    rw [hok] at hspec
    obtain ⟨id, copies, hvalue, hid, hcopied⟩ := hspec
    exact ⟨id, copies, hvalue, hid, hcopied,
      fun _ _ _ _ _ _ hi hj hv hv' ↦ hcopied.reads_eq_iff hi hj hv hv'⟩
  · intro failure after herror
    unfold Ensures at hspec
    rw [herror] at hspec
    exact hspec.1

/-! Two objects that refer to each other, where one refers to the other twice. Behind them are cells
that are no object, and in the second heap a field refers there. -/

def pairShape : Shape := ⟨["left", "right"]⟩

def pairDictionary : Dictionary := ⟨#[.undefined, .shape 7 pairShape, .str "end"]⟩

def sharedHeap : Heap :=
  { id := 3, capacity := 16, cells := #[⟨6⟩, .mark, ⟨16⟩, ⟨16⟩, ⟨6⟩, .mark, ⟨0⟩, ⟨10⟩, ⟨40⟩, ⟨99⟩] }

def strayHeap : Heap :=
  { sharedHeap with cells := sharedHeap.cells.set! 7 ⟨32⟩ }

def pairAt (start : Nat) : Placed := ⟨start, pairShape⟩

/-- The fields of both objects refer to these objects, or name entries. -/
theorem sharedHeap_fields : ∀ start ∈ [0, 4], ∀ offset < 2,
    (sharedHeap.field? (pairAt start) offset).any (fun word ↦ match word.view with
      | .reference next => next = 0 || next = 4
      | .entry index => index < pairDictionary.size
      | .small _ => true) = true := by
  decide +kernel

theorem sharedHeap_header {start : Nat} (h : start = 0 ∨ start = 4) :
    sharedHeap.HasHeader pairDictionary (pairAt start) := by
  rcases h with rfl | rfl <;> exact ⟨⟨6⟩, rfl, rfl⟩

theorem sharedHeap_reaches {index : Nat} (h : sharedHeap.Reaches pairDictionary 0 index) :
    index = 0 ∨ index = 4 := by
  induction h with
  | root => exact .inl rfl
  | @field o offset next word _ hheader hoffset hword hview ih =>
    have hpair : o = pairAt o.start := hheader.unique (sharedHeap_header ih) rfl
    have hsize : o.shape.size = 2 := by
      rw [hpair]
      rfl
    have hfield := sharedHeap_fields o.start (by simpa using ih) offset (hsize ▸ hoffset)
    rw [← hpair, hword] at hfield
    simpa [hview] using hfield

theorem sharedHeap_wholeFrom : sharedHeap.WholeFrom pairDictionary 0 := by
  intro index hreached
  have hindex := sharedHeap_reaches hreached
  refine ⟨pairAt index, rfl, sharedHeap_header hindex, ?_, ?_⟩
  · rcases hindex with rfl | rfl <;> decide
  · intro offset hoffset word entry hword hview
    have hfield := sharedHeap_fields index (by simpa using hindex) offset hoffset
    rw [hword] at hfield
    simpa [hview] using hfield

/-- The reference behind the objects leads to no object. -/
theorem strayHeap_not_wholeFrom : ¬strayHeap.WholeFrom pairDictionary 0 := by
  intro hwhole
  have hsecond : strayHeap.Reaches pairDictionary 0 4 :=
    @Heap.Reaches.field _ _ _ (pairAt 0) 0 4 ⟨16⟩ .root ⟨⟨6⟩, rfl, rfl⟩ (by decide) rfl (by decide)
  have hstray : strayHeap.Reaches pairDictionary 0 8 :=
    @Heap.Reaches.field _ _ _ (pairAt 4) 1 8 ⟨32⟩ hsecond ⟨⟨6⟩, rfl, rfl⟩ (by decide) rfl
      (by decide)
  obtain ⟨o, hstart, ⟨word, hword, hshape⟩, -⟩ := hwhole 8 hstray
  rw [hstart] at hword
  obtain rfl : ⟨40⟩ = word := Option.some.inj hword
  cases hshape

theorem sharedHeap_copied :
    (⟨0⟩ : Word).view = .reference 0 ∧
      (∃ id after copies, decode pairDictionary sharedHeap ⟨0⟩ ⟨#[]⟩ = .ok (.record id) after ∧
        CopiedFrom pairDictionary sharedHeap 0 ⟨#[]⟩ after copies) ∧
      ∃ detail after, decode pairDictionary strayHeap ⟨0⟩ ⟨#[]⟩ =
        .error (.inconsistent detail) after := by
  have hview : (⟨0⟩ : Word).view = .reference 0 := by decide
  obtain ⟨-, -, hshared, hcopied, -⟩ :=
    decode_copies_graph pairDictionary sharedHeap hview ⟨#[]⟩
  obtain ⟨-, -, hstray, -, hfailed⟩ := decode_copies_graph pairDictionary strayHeap hview ⟨#[]⟩
  refine ⟨hview, ?_, ?_⟩
  · obtain ⟨value, after, hok⟩ := hshared.mpr sharedHeap_wholeFrom
    obtain ⟨id, copies, rfl, -, hgraph, -⟩ := hcopied value after hok
    exact ⟨id, after, copies, hok, hgraph⟩
  · cases herror : decode pairDictionary strayHeap ⟨0⟩ ⟨#[]⟩ with
    | ok value after => exact absurd (hstray.mp ⟨value, after, herror⟩) strayHeap_not_wholeFrom
    | error failure after =>
      obtain ⟨detail, rfl⟩ := hfailed failure after herror
      exact ⟨detail, after, rfl⟩

end TandemScript
