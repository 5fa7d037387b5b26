import TandemScript.Proofs.Room
import TandemScript.Proofs.TrackedValues

/-!
# The boundary of a machine with shifted records

Words that correspond are decoded to values that correspond: the copies of objects are made in the
same order, at shifted places of the records. Values that correspond are encoded as words that
correspond.
-/

namespace TandemScript

variable {o : Offsets} {ρ ρ' : Renaming}

/-! ## Words that are no references -/

theorem Except.Alike.refl {ε α : Type} {R : α → α → Prop} (hR : ∀ a, R a a) (x : Except ε α) :
    Except.Alike R x x := by
  cases x with
  | ok a => exact .ok (hR a)
  | error e => exact .error e

section Plain

variable {dict dict' : Dictionary} {word word' : Word}

theorem Dictionary.Renamed.value_alike (h : dict.Renamed ρ dict') (hword : word.Renamed ρ word') :
    Except.Alike (Value.Renamed ρ) (dict.value word) (dict'.value word') := by
  cases hword with
  | entry hview hview' hentry =>
    obtain ⟨value, value', hvalue, hvalue', hrenamed⟩ := h _ _ hentry
    rw [Dictionary.value_eq_ok.mpr ⟨_, hview, hvalue⟩,
      Dictionary.value_eq_ok.mpr ⟨_, hview', hvalue'⟩]
    exact .ok hrenamed
  | same hview =>
    have hnone : word.asEntry? = none := by
      cases hentry : word.asEntry? with
      | none => rfl
      | some index => exact absurd (Word.asEntry?_eq_some.mp hentry) (hview index)
    unfold Dictionary.value
    rw [hnone]
    exact .error _

theorem Dictionary.Renamed.string_alike (h : dict.Renamed ρ dict')
    (hword : word.Renamed ρ word') : Except.Alike Eq (dict.string word) (dict'.string word') := by
  refine .bind (h.value_alike hword) fun value value' hvalue ↦ ?_
  cases hvalue with
  | basic _ => exact .refl (fun _ ↦ rfl) _
  | _ => exact .error _

theorem Dictionary.Renamed.shape_alike (h : dict.Renamed ρ dict')
    (hword : word.Renamed ρ word') : Except.Alike Eq (dict.shape word) (dict'.shape word') := by
  refine .bind (h.value_alike hword) fun value value' hvalue ↦ ?_
  cases hvalue with
  | basic _ => exact .refl (fun _ ↦ rfl) _
  | shape layout _ => exact .ok rfl
  | _ => exact .error _

theorem Dictionary.Renamed.function_alike (h : dict.Renamed ρ dict')
    (hword : word.Renamed ρ word') :
    Except.Alike (Function.Renamed ρ) (dict.function word) (dict'.function word') := by
  refine .bind (h.value_alike hword) fun value value' hvalue ↦ ?_
  cases hvalue with
  | @basic value hbasic =>
    cases value with
    | function f => exact hbasic.elim
    | _ => exact .error _
  | function hf => exact .ok hf
  | _ => exact .error _

theorem Dictionary.Renamed.plainValue_alike (h : dict.Renamed ρ dict')
    (hword : word.Renamed ρ word') :
    Except.Alike (Value.Renamed ρ) (plainValue dict word) (plainValue dict' word') := by
  have hvalue := h.value_alike hword
  unfold plainValue
  rw [hword.asSmall?_eq]
  split
  · exact .ok (.basic trivial)
  · exact hvalue

end Plain

/-! ## Heaps -/

/-- Two heaps with the same room and the same objects. -/
structure Heap.Renamed (ρ : Renaming) (heap heap' : Heap) : Prop where
  id : ρ.heap heap.id heap'.id
  capacity : heap.capacity = heap'.capacity
  cells : Array.Corresponds (Word.Renamed ρ) heap.cells heap'.cells

namespace Heap.Renamed

variable {heap heap' : Heap} {word word' : Word}

theorem mono (h : heap.Renamed ρ heap') (hρ : ρ.Extends ρ') : heap.Renamed ρ' heap' :=
  ⟨hρ.heap _ _ h.id, h.capacity, h.cells.mono fun _ _ h ↦ h.mono hρ⟩

theorem used_eq (h : heap.Renamed ρ heap') : heap.used = heap'.used :=
  h.cells.size_eq

theorem fits_eq (h : heap.Renamed ρ heap') (fieldCount : Nat) :
    heap.fits fieldCount = heap'.fits fieldCount := by
  unfold Heap.fits
  rw [h.used_eq, h.capacity]

theorem object_eq (h : heap.Renamed ρ heap') (index : Nat) :
    heap.object index = heap'.object index := by
  unfold Heap.object
  rw [h.used_eq]

theorem cellOfField_eq (h : heap.Renamed ρ heap') (index offset : Nat) :
    heap.cellOfField index offset = heap'.cellOfField index offset := by
  unfold Heap.cellOfField
  rw [h.object_eq, h.used_eq]

theorem shapeWord_alike (h : heap.Renamed ρ heap') (hundefined : ρ.entry 0 0) (index : Nat) :
    Except.Alike (Word.Renamed ρ) (heap.shapeWord index) (heap'.shapeWord index) := by
  unfold Heap.shapeWord
  rw [h.object_eq]
  refine .bind (.refl (R := Eq) (fun _ ↦ rfl) _) fun start _ hstart ↦ ?_
  rw [hstart]
  exact .ok (h.cells.getD _ (.entry rfl rfl hundefined))

theorem readField_alike (h : heap.Renamed ρ heap') (hundefined : ρ.entry 0 0)
    (index offset : Nat) :
    Except.Alike (Word.Renamed ρ) (heap.readField index offset) (heap'.readField index offset) := by
  unfold Heap.readField
  rw [h.cellOfField_eq]
  refine .bind (.refl (R := Eq) (fun _ ↦ rfl) _) fun cell _ hcell ↦ ?_
  rw [hcell]
  exact .ok (h.cells.getD _ (.entry rfl rfl hundefined))

theorem writeField_alike (h : heap.Renamed ρ heap') (index offset : Nat)
    (hword : word.Renamed ρ word') :
    Except.Alike (Heap.Renamed ρ) (heap.writeField index offset word)
      (heap'.writeField index offset word') := by
  unfold Heap.writeField
  rw [h.cellOfField_eq]
  split
  · exact .ok ⟨h.id, h.capacity, h.cells.set _ hword⟩
  · exact .error _

theorem add (h : heap.Renamed ρ heap') (hword : word.Renamed ρ word') {fields fields' : Array Word}
    (hfields : Array.Corresponds (Word.Renamed ρ) fields fields') :
    (heap.add word fields).Renamed ρ (heap'.add word' fields') :=
  ⟨h.id, h.capacity, ((h.cells.push hword).push (Word.renamed_small ρ 0)).append hfields⟩

theorem alloc?_rel (h : heap.Renamed ρ heap') (hword : word.Renamed ρ word')
    {fields fields' : Array Word} (hfields : Array.Corresponds (Word.Renamed ρ) fields fields') :
    Option.Rel (fun found found' ↦ found.1.Renamed ρ found'.1 ∧ found.2.Renamed ρ found'.2)
      (heap.alloc? word fields) (heap'.alloc? word' fields') := by
  have hplace : heap.place? fields.size = heap'.place? fields'.size := by
    unfold Heap.place?
    rw [hfields.size_eq, h.fits_eq, h.used_eq]
  unfold Heap.alloc?
  rw [hplace]
  split
  · next reference hreference =>
    unfold Heap.place? at hreference
    split at hreference
    · exact .some ⟨Word.renamed_reference ρ hreference, h.add hword hfields⟩
    · cases hreference
  · exact .none

theorem enlarge (h : heap.Renamed ρ heap') (fieldCount : Nat) :
    (heap.enlarge fieldCount).Renamed ρ (heap'.enlarge fieldCount) := by
  induction heap using Heap.enlarge.induct fieldCount generalizing heap' with
  | case1 heap hfits =>
    rw [Heap.enlarge_of_fits hfits, Heap.enlarge_of_fits (h.fits_eq fieldCount ▸ hfits)]
    exact h
  | case2 heap hfits hgrow =>
    have hgrow' : heap'.grow? = none := by
      unfold Heap.grow? at hgrow ⊢
      rw [← h.capacity]
      split at hgrow
      · cases hgrow
      · next hfull => rw [if_neg hfull]
    rw [Heap.enlarge_of_grow?_none hgrow, Heap.enlarge_of_grow?_none hgrow']
    exact h
  | case3 heap hfits bigger hgrow ih =>
    obtain ⟨capacity, rfl, -⟩ := Heap.grow?_eq_some hgrow
    have hgrow' : heap'.grow? = some { heap' with capacity } := by
      unfold Heap.grow? at hgrow ⊢
      rw [← h.capacity]
      split at hgrow
      · next hfull =>
        rw [if_pos hfull, (Heap.mk.inj (Option.some.inj hgrow)).2.1]
      · cases hgrow
    rw [Heap.enlarge_of_grow?_some hfits hgrow,
      Heap.enlarge_of_grow?_some (h.fits_eq fieldCount ▸ hfits) hgrow']
    exact ih ⟨h.id, rfl, h.cells⟩

end Heap.Renamed

/-! ## Copies of objects -/

/-- The same object waits for its fields in both runs. -/
structure Unfilled.Renamed (ρ : Renaming) (object object' : Unfilled) : Prop where
  index : object.index = object'.index
  record : ρ.record object.record object'.record
  size : object.size = object'.size

/-- Both copies are equally far. -/
structure Copying.Tracks (o : Offsets) (ρ : Renaming) (st st' : Copying) : Prop where
  records : st.records.Tracks o ρ st'.records
  copies : ∀ index : Nat, Option.Rel ρ.record st.copies[index]? st'.copies[index]?
  pending : List.Forall₂ (Unfilled.Renamed ρ) st.pending st'.pending

section Copies

variable {dict dict' : Dictionary} {heap heap' : Heap}

theorem Copying.Tracks.start {records records' : Records} (h : records.Tracks o ρ records') :
    Copying.Tracks o ρ { records } { records := records' } :=
  ⟨h, fun _ ↦ by simp only [Std.HashMap.getElem?_empty]; exact .none, .nil⟩

theorem copyOf_parallel (hdict : dict.Tracks o ρ dict') (hheap : heap.Renamed ρ heap')
    (index : Nat) :
    Parallel (Copying.Tracks o ρ) ρ.record (copyOf dict heap index) (copyOf dict' heap' index) := by
  have hshape : Except.Alike Eq (heap.shapeWord index >>= dict.shape)
      (heap'.shapeWord index >>= dict'.shape) :=
    .bind (hheap.shapeWord_alike hdict.undefined index) fun _ _ hword ↦
      hdict.renamed.shape_alike hword
  refine .bind .get fun st st' htracks ↦ ?_
  have hfound := htracks.copies index
  generalize st.copies[index]? = found, st'.copies[index]? = found' at hfound
  cases hfound with
  | some hrecord => exact .pure hrecord
  | none =>
    refine .bind (.ofExcept hshape) fun shape _ hsame ↦ ?_
    subst hsame
    refine .modifyGet fun st st' htracks ↦ ?_
    have hunfilled : (Record.unfilled shape ⟨heap.id, index⟩).Renamed ρ
        (.unfilled shape ⟨heap'.id, index⟩) :=
      ⟨rfl, .replicate (.basic trivial) _, .some ⟨hheap.id, rfl⟩⟩
    obtain ⟨hid, hrecords⟩ := htracks.records.add hdict.shifts hunfilled
    refine ⟨hid, hrecords, fun other ↦ ?_, .cons ⟨rfl, hid, rfl⟩ htracks.pending⟩
    simp only [Std.HashMap.getElem?_insert]
    split
    · exact .some hid
    · exact htracks.copies other

theorem copyWord_parallel (hdict : dict.Tracks o ρ dict') (hheap : heap.Renamed ρ heap')
    {word word' : Word} (hword : word.Renamed ρ word') :
    Parallel (Copying.Tracks o ρ) (Value.Renamed ρ) (copyWord dict heap word)
      (copyWord dict' heap' word') := by
  have hplain := hdict.renamed.plainValue_alike hword
  unfold copyWord
  rcases hword.view with ⟨index, index', hview, hview', -⟩ | ⟨rfl, -⟩
  · rw [hview, hview']
    exact .ofExcept hplain
  · split
    · exact .bind (copyOf_parallel hdict hheap _) fun _ _ hid ↦ .pure (.record hid)
    · exact .ofExcept hplain

theorem copyFields_parallel (hdict : dict.Tracks o ρ dict') (hheap : heap.Renamed ρ heap')
    {object object' : Unfilled} (hobject : object.Renamed ρ object') (count : Nat) :
    ∀ offset, Parallel (Copying.Tracks o ρ) (fun _ _ ↦ True)
      (copyFields dict heap object offset count) (copyFields dict' heap' object' offset count) := by
  induction count with
  | zero => exact fun _ ↦ .pure trivial
  | succ count ih =>
    intro offset
    have hread := hheap.readField_alike hdict.undefined object.index offset
    rw [hobject.index] at hread
    unfold copyFields
    rw [hobject.index]
    refine .bind (.ofExcept hread) fun word word' hword ↦ ?_
    refine .bind (copyWord_parallel hdict hheap hword) fun value value' hvalue ↦ ?_
    refine .bind (.modify fun st st' htracks ↦ ?_) fun _ _ _ ↦ ih (offset + 1)
    exact ⟨htracks.records.setSlot hdict.shifts hobject.record offset hvalue, htracks.copies,
      htracks.pending⟩

theorem copyPending_parallel (hdict : dict.Tracks o ρ dict') (hheap : heap.Renamed ρ heap')
    (rounds : Nat) :
    Parallel (Copying.Tracks o ρ) (fun _ _ ↦ True) (copyPending dict heap rounds)
      (copyPending dict' heap' rounds) := by
  induction rounds with
  | zero => exact .pure trivial
  | succ rounds ih =>
    refine .bind .get fun st st' htracks ↦ ?_
    have hpending := htracks.pending
    generalize st.pending = pending, st'.pending = pending' at hpending
    cases hpending with
    | nil => exact .pure trivial
    | cons hobject hrest =>
      refine .bind (.modify fun _ _ h ↦ ⟨h.records, h.copies, hrest⟩) fun _ _ _ ↦ ?_
      rw [hobject.size]
      exact .bind (copyFields_parallel hdict hheap hobject _ 0) fun _ _ _ ↦ ih

theorem copyOut_parallel (hdict : dict.Tracks o ρ dict') (hheap : heap.Renamed ρ heap')
    (index : Nat) :
    Parallel (Copying.Tracks o ρ) (Value.Renamed ρ) (copyOut dict heap index)
      (copyOut dict' heap' index) := by
  refine .bind (copyOf_parallel hdict hheap index) fun record record' hrecord ↦ ?_
  rw [hheap.used_eq]
  exact .bind (copyPending_parallel hdict hheap _) fun _ _ _ ↦ .pure (.record hrecord)

theorem decode_apply {word : Word} {index : Nat} (hview : word.view = .reference index)
    (records : Records) :
    decode dict heap word records =
      resultWithin Copying.records id (copyOut dict heap index { records }) := by
  unfold decode
  simp only [hview]
  cases copyOut dict heap index { records } <;> rfl

/-- Words that correspond have values that correspond. -/
theorem decode_parallel (hdict : dict.Tracks o ρ dict') (hheap : heap.Renamed ρ heap')
    {word word' : Word} (hword : word.Renamed ρ word') :
    Parallel (Records.Tracks o ρ) (Value.Renamed ρ) (decode dict heap word)
      (decode dict' heap' word') := by
  have hplain := hdict.renamed.plainValue_alike hword
  rcases hword.view with ⟨index, index', hview, hview', -⟩ | ⟨rfl, -⟩
  · rw [decode_of_plain (by simp [hview]), decode_of_plain (by simp [hview'])]
    exact .ofExcept hplain
  · cases hview : word'.view with
    | reference index =>
      intro records records' htracks
      have hcopy := copyOut_parallel hdict hheap index _ _ (.start htracks)
      exact hcopy.lift (decode_apply hview _) (decode_apply hview _) fun _ _ hst ↦ hst.records
    | _ =>
      rw [decode_of_plain (by simp [hview]), decode_of_plain (by simp [hview])]
      exact .ofExcept hplain

end Copies

/-! ## Words of values -/

/-- Values that correspond have words that correspond. -/
theorem encode_alongside {records records' : Records} {heap heap' : Heap} {value value' : Value}
    (hρ : ρ.Shifts o) (hrecords : records.Tracks o ρ records') (hheap : heap.Renamed ρ heap')
    (hvalue : value.Renamed ρ value') :
    Alongside id (Dictionary.Tracks o) ρ Word.Renamed (encode records heap value)
      (encode records' heap' value') := by
  have hintern := Dictionary.intern_alongside (o := o) hvalue
  cases hvalue with
  | @basic value hbasic =>
    cases value with
    | int n =>
      unfold encode
      simp only
      cases hword : Word.ofInt? n with
      | none => exact hintern
      | some word => exact .pure (Word.renamed_ofInt? ρ hword)
    | function _ | shape _ _ | record _ => exact hbasic.elim
    | _ => exact hintern
  | function _ => exact hintern
  | shape _ _ => exact hintern
  | @record id id' hid =>
    have horigin := hrecords.origin? hρ hid
    unfold encode
    simp only
    generalize records.origin? id = origin, records'.origin? id' = origin' at horigin
    cases horigin with
    | none => exact hintern
    | @some origin origin' horigin =>
      have hsame : origin.heap = heap.id ↔ origin'.heap = heap'.id := by
        rw [(hρ.heap _ _).mp horigin.1, (hρ.heap _ _).mp hheap.id, Nat.add_right_cancel_iff]
      simp only [hsame, horigin.2]
      split
      · cases hreference : Word.reference? origin'.index with
        | none => exact .of_parallel fun _ _ h ↦ ⟨rfl, h⟩
        | some word => exact .pure (Word.renamed_reference ρ hreference)
      · exact hintern

end TandemScript
