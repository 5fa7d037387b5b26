import TandemScript.Proofs.HeapCalls
import TandemScript.Proofs.Interning
import TandemScript.Proofs.Room

/-!
# Histories of a heap

Over a whole history of calls a heap behaves like objects that have nothing to do with each other.
Every field has the word that was last written to it, whatever happened to other objects and however
often the heap grew.
-/

namespace TandemScript

/-! ## Objects by themselves -/

/-- An object by itself: its reference, the word of its shape, and the words in its fields. -/
structure HeapObject where
  reference : Word
  shape : Word
  fields : Array Word

namespace HeapObject

def cells (o : HeapObject) : List Word :=
  o.shape :: Word.mark :: o.fields.toList

/-- The object behind a write, which leaves all objects alone but the one it names. -/
def write (index offset : Nat) (word : Word) (o : HeapObject) : HeapObject :=
  if o.reference.view = .reference index then
    { o with fields := o.fields.setIfInBounds offset word }
  else o

end HeapObject

/-- The objects behind some events, the oldest of which comes first. -/
def objectsOf : List HeapEvent → List HeapObject
  | [] => []
  | (.alloc shape fields, .placed reference) :: earlier =>
    objectsOf earlier ++ [⟨reference, shape, fields⟩]
  | (.write index offset word, .written) :: earlier =>
    (objectsOf earlier).map (.write index offset word)
  | _ :: earlier => objectsOf earlier

/-- The cells of some objects. -/
def cellsOf (objects : List HeapObject) : List Word :=
  objects.flatMap HeapObject.cells

/-- The word that was last written to a field, by a write or with the object. -/
def lastWritten? (index offset : Nat) : List HeapEvent → Option Word
  | [] => none
  | (.alloc _ fields, .placed reference) :: earlier =>
    if reference.view = .reference index then fields[offset]?
    else lastWritten? index offset earlier
  | (.write index' offset' word, .written) :: earlier =>
    if index' = index ∧ offset' = offset then some word else lastWritten? index offset earlier
  | _ :: earlier => lastWritten? index offset earlier

/-- Every write names a field of an object that was there before. -/
def InBounds : List HeapEvent → Prop
  | [] => True
  | (.write index offset _, _) :: earlier =>
    (∃ o ∈ objectsOf earlier, o.reference.view = .reference index ∧ offset < o.fields.size) ∧
      InBounds earlier
  | _ :: earlier => InBounds earlier

instance decidableInBounds : (events : List HeapEvent) → Decidable (InBounds events)
  | [] => .isTrue trivial
  | (.write .., _) :: earlier =>
    have := decidableInBounds earlier
    inferInstanceAs (Decidable (_ ∧ _))
  | (.alloc .., _) :: earlier => decidableInBounds earlier
  | (.grow, _) :: earlier => decidableInBounds earlier

/-! ## Cells of objects -/

section Cells

variable {before after objects : List HeapObject} {o p : HeapObject} {index offset : Nat}
  {word : Word}

theorem cellsOf_append (before after : List HeapObject) :
    cellsOf (before ++ after) = cellsOf before ++ cellsOf after :=
  List.flatMap_append

theorem cellsOf_cons (o : HeapObject) (after : List HeapObject) :
    cellsOf (o :: after) = o.cells ++ cellsOf after :=
  List.flatMap_cons

theorem HeapObject.length_cells (o : HeapObject) :
    o.cells.length = headerCells + o.fields.size := by
  simp only [cells, List.length_cons, Array.length_toList, headerCells]
  omega

theorem length_cellsOf_middle (before after : List HeapObject) (o : HeapObject) :
    (cellsOf (before ++ o :: after)).length =
      (cellsOf before).length + (headerCells + o.fields.size) + (cellsOf after).length := by
  rw [cellsOf_append, cellsOf_cons, List.length_append, List.length_append, o.length_cells,
    ← Nat.add_assoc]

/-- A header or a field of an object, found among the cells of all. -/
theorem getElem?_cellsOf_middle (hoffset : offset < headerCells + o.fields.size) :
    (cellsOf (before ++ o :: after))[(cellsOf before).length + offset]? = o.cells[offset]? := by
  rw [cellsOf_append, cellsOf_cons, List.getElem?_append_right (Nat.le_add_right _ _),
    Nat.add_sub_cancel_left, List.getElem?_append_left (o.length_cells ▸ hoffset)]

theorem HeapObject.getElem?_cells (o : HeapObject) (offset : Nat) :
    o.cells[headerCells + offset]? = o.fields[offset]? := by
  rw [Nat.add_comm]
  simp [cells, headerCells]

/-- Writing a cell of an object writes the field of that object. -/
theorem set_cellsOf_middle (hview : o.reference.view = .reference index)
    (hoffset : offset < o.fields.size) :
    (cellsOf (before ++ o :: after)).set ((cellsOf before).length + headerCells + offset) word =
      cellsOf (before ++ o.write index offset word :: after) := by
  have hcells : o.cells.set (headerCells + offset) word = (o.write index offset word).cells := by
    rw [HeapObject.write, if_pos hview, Nat.add_comm]
    simp [HeapObject.cells, headerCells]
  have hlength : headerCells + offset < o.cells.length := by
    rw [o.length_cells]
    omega
  calc
    (cellsOf (before ++ o :: after)).set ((cellsOf before).length + headerCells + offset) word =
        cellsOf before ++ (o.cells ++ cellsOf after).set (headerCells + offset) word := by
      rw [cellsOf_append, cellsOf_cons, List.set_append_right _ _ (by omega), Nat.add_assoc,
        Nat.add_sub_cancel_left]
    _ = cellsOf before ++ (o.cells.set (headerCells + offset) word ++ cellsOf after) := by
      rw [List.set_append_left _ _ hlength]
    _ = cellsOf (before ++ o.write index offset word :: after) := by
      rw [hcells, cellsOf_append, cellsOf_cons]

theorem HeapObject.size_write (o : HeapObject) (index offset : Nat) (word : Word) :
    (o.write index offset word).fields.size = o.fields.size := by
  unfold HeapObject.write
  split
  · exact Array.size_setIfInBounds
  · rfl

theorem HeapObject.reference_write (o : HeapObject) (index offset : Nat) (word : Word) :
    (o.write index offset word).reference = o.reference := by
  unfold HeapObject.write
  split <;> rfl

theorem HeapObject.shape_write (o : HeapObject) (index offset : Nat) (word : Word) :
    (o.write index offset word).shape = o.shape := by
  unfold HeapObject.write
  split <;> rfl

/-- Only the field that a write names has another word. -/
theorem HeapObject.getElem?_write (word : Word) (hoffset : offset < o.fields.size)
    (written : Nat) :
    (o.write index written word).fields[offset]? =
      if o.reference.view = .reference index ∧ written = offset then some word
      else o.fields[offset]? := by
  unfold HeapObject.write
  by_cases hview : o.reference.view = .reference index
  · rw [if_pos hview, Array.getElem?_setIfInBounds]
    by_cases hwritten : written = offset
    · rw [if_pos hwritten, if_pos (hwritten ▸ hoffset), if_pos ⟨hview, hwritten⟩]
    · rw [if_neg hwritten, if_neg fun h ↦ hwritten h.2]
  · rw [if_neg hview, if_neg fun h ↦ hview h.1]

theorem map_write_middle
    (hothers : ∀ p ∈ before ++ after, p.reference.view ≠ .reference index) :
    (before ++ o :: after).map (HeapObject.write index offset word) =
      before ++ o.write index offset word :: after := by
  have hsame (objects : List HeapObject) (hsub : ∀ p ∈ objects, p ∈ before ++ after) :
      objects.map (HeapObject.write index offset word) = objects := by
    calc
      objects.map (HeapObject.write index offset word) = objects.map id := by
        apply List.map_congr_left
        intro p hp
        exact if_neg (hothers p (hsub p hp))
      _ = objects := List.map_id objects
  rw [List.map_append, List.map_cons, hsame before fun _ ↦ List.mem_append_left _,
    hsame after fun _ ↦ List.mem_append_right _]

/-- Every object has the reference to its first cell. -/
def Consecutive (objects : List HeapObject) : Prop :=
  ∀ before o after, objects = before ++ o :: after →
    Word.reference? (cellsOf before).length = some o.reference

theorem Consecutive.concat (h : Consecutive objects)
    (ho : Word.reference? (cellsOf objects).length = some o.reference) :
    Consecutive (objects ++ [o]) := by
  intro before p after hsplit
  rcases List.eq_nil_or_concat after with rfl | ⟨rest, last, rfl⟩
  · obtain ⟨rfl, hlast⟩ := List.append_inj' hsplit rfl
    obtain rfl := List.singleton_inj.mp hlast
    exact ho
  · rw [List.concat_eq_append, ← List.cons_append, ← List.append_assoc] at hsplit
    exact h before p rest (List.append_inj' hsplit rfl).1

/-- Written objects have the room that they had before. -/
theorem length_cellsOf_map_write (objects : List HeapObject) (index offset : Nat) (word : Word) :
    (cellsOf (objects.map (.write index offset word))).length = (cellsOf objects).length := by
  induction objects with
  | nil => rfl
  | cons o rest ih =>
    rw [List.map_cons, cellsOf_cons, cellsOf_cons, List.length_append, List.length_append, ih,
      HeapObject.length_cells, HeapObject.length_cells, HeapObject.size_write]

theorem Consecutive.map_write (h : Consecutive objects) (index offset : Nat) (word : Word) :
    Consecutive (objects.map (.write index offset word)) := by
  intro before o after hsplit
  obtain ⟨first, rest, rfl, rfl, hrest⟩ := List.map_eq_append_iff.mp hsplit
  obtain ⟨p, later, rfl, rfl, -⟩ := List.map_eq_cons_iff.mp hrest
  rw [length_cellsOf_map_write, HeapObject.reference_write]
  exact h first p later rfl

/-- An object is told apart from all others by its reference. -/
theorem Consecutive.split (h : Consecutive objects) (ho : o ∈ objects)
    (hview : o.reference.view = .reference index) :
    ∃ before after, objects = before ++ o :: after ∧ (cellsOf before).length = index ∧
      ∀ p ∈ before ++ after, p.reference.view ≠ .reference index := by
  obtain ⟨before, after, rfl⟩ := List.append_of_mem ho
  have hplace (first : List HeapObject) (p : HeapObject) (rest : List HeapObject)
      (hsplit : before ++ o :: after = first ++ p :: rest) :
      p.reference.view = .reference (cellsOf first).length :=
    Word.view_of_reference? (h first p rest hsplit)
  have hindex : (cellsOf before).length = index :=
    Word.View.reference.inj ((hplace before o after rfl).symm.trans hview)
  refine ⟨before, after, rfl, hindex, ?_⟩
  intro p hp heq
  -- another object has its first cell before or behind all cells of this one
  rcases List.mem_append.mp hp with hp | hp
  · obtain ⟨first, rest, rfl⟩ := List.append_of_mem hp
    have hview' := hplace first p (rest ++ o :: after) (by simp)
    have hfirst := Word.View.reference.inj (hview'.symm.trans heq)
    rw [length_cellsOf_middle] at hindex
    unfold headerCells at hindex
    omega
  · obtain ⟨first, rest, rfl⟩ := List.append_of_mem hp
    have hview' := hplace (before ++ o :: first) p rest (by simp)
    have hfirst := Word.View.reference.inj (hview'.symm.trans heq)
    rw [length_cellsOf_middle] at hfirst
    unfold headerCells at hfirst
    omega

end Cells

/-! ## What an object reads -/

namespace Heap

section Middle

variable {heap : Heap} {before after : List HeapObject} {o : HeapObject} {offset : Nat}
  (hcells : heap.cells.toList = cellsOf (before ++ o :: after))

include hcells

theorem used_of_middle :
    heap.used =
      (cellsOf before).length + (headerCells + o.fields.size) + (cellsOf after).length := by
  rw [← length_cellsOf_middle, ← hcells, Array.length_toList]
  rfl

theorem getElem?_of_middle (hoffset : offset < headerCells + o.fields.size) :
    heap.cells[(cellsOf before).length + offset]? = o.cells[offset]? := by
  rw [← Array.getElem?_toList, hcells, getElem?_cellsOf_middle hoffset]

theorem object_of_middle :
    heap.object (cellsOf before).length = .ok (cellsOf before).length := by
  have hused := used_of_middle hcells
  unfold object
  rw [if_neg (by omega)]

theorem shapeWord_of_middle : heap.shapeWord (cellsOf before).length = .ok o.shape := by
  have hroom : 0 < headerCells + o.fields.size := Nat.add_pos_left (by decide) _
  have hheader : heap.cells[(cellsOf before).length]? = some o.shape :=
    getElem?_of_middle hcells hroom
  unfold shapeWord
  rw [object_of_middle hcells]
  change Except.ok (heap.cells.getD (cellsOf before).length Word.undefined) = _
  rw [Array.getD_eq_getD_getElem?, hheader]
  rfl

theorem cellOfField_of_middle (hoffset : offset < o.fields.size) :
    heap.cellOfField (cellsOf before).length offset =
      .ok ((cellsOf before).length + headerCells + offset) := by
  have hused := used_of_middle hcells
  unfold cellOfField
  rw [object_of_middle hcells]
  exact if_pos (by omega)

theorem readField_of_middle (hoffset : offset < o.fields.size) :
    heap.readField (cellsOf before).length offset = .ok o.fields[offset] := by
  have hfield : heap.cells[(cellsOf before).length + headerCells + offset]? =
      some o.fields[offset] := by
    rw [Nat.add_assoc, getElem?_of_middle hcells (by omega), o.getElem?_cells,
      Array.getElem?_eq_getElem hoffset]
  unfold readField
  rw [cellOfField_of_middle hcells hoffset]
  change Except.ok (heap.cells.getD _ Word.undefined) = _
  rw [Array.getD_eq_getD_getElem?, hfield]
  rfl

end Middle

/-! ## What a history leads to -/

/-- The heap consists of the objects of its history, with what was last written to them. -/
structure MadeBy (heap : Heap) (events : List HeapEvent) : Prop where
  bounded : heap.capacity ≤ indexBound
  cells : heap.cells.toList = cellsOf (objectsOf events)
  consecutive : Consecutive (objectsOf events)
  written : ∀ o ∈ objectsOf events, ∀ index offset, o.reference.view = .reference index →
    offset < o.fields.size → o.fields[offset]? = lastWritten? index offset events
  placed : ∀ shape fields reference, (.alloc shape fields, .placed reference) ∈ events →
    ∃ o ∈ objectsOf events, o.reference = reference ∧ o.shape = shape ∧
      o.fields.size = fields.size

/-- An object fits or not, whatever there is else. -/
theorem answer_alloc {heap : Heap} (h : heap.capacity ≤ indexBound) (shape : Word)
    (fields : Array Word) :
    (heap.capacity < heap.used + headerCells + fields.size ∧
      heap.answer (.alloc shape fields) = (.refused, heap)) ∨
    heap.used + headerCells + fields.size ≤ heap.capacity ∧
      ∃ reference, Word.reference? heap.used = some reference ∧
        heap.answer (.alloc shape fields) = (.placed reference, heap.add shape fields) := by
  by_cases hroom : heap.used + headerCells + fields.size ≤ heap.capacity
  · right
    have hused : heap.used < indexBound := by
      unfold headerCells at hroom
      omega
    have hfits : heap.fits fields.size = true := (heap.fits_iff _).mpr hroom
    refine ⟨hroom, _, if_pos hused, ?_⟩
    simp only [answer, alloc?, place?, hfits, if_true, Word.reference?, if_pos hused]
  · left
    have hfits : heap.fits fields.size = false :=
      Bool.eq_false_iff.mpr fun h ↦ hroom ((heap.fits_iff _).mp h)
    refine ⟨Nat.lt_of_not_le hroom, ?_⟩
    simp [answer, alloc?, place?, hfits]

namespace MadeBy

variable {heap : Heap} {events : List HeapEvent}

theorem new {id capacity : Nat} (h : capacity ≤ indexBound) : (new id capacity).MadeBy [] where
  bounded := h
  cells := rfl
  consecutive := by
    intro before o after hsplit
    simp [objectsOf] at hsplit
  written := by simp [objectsOf]
  placed := by simp

theorem used (h : heap.MadeBy events) : heap.used = (cellsOf (objectsOf events)).length := by
  rw [← h.cells, Array.length_toList]
  rfl

/-- The next reference belongs to no object yet. -/
theorem fresh (h : heap.MadeBy events) {o : HeapObject} (ho : o ∈ objectsOf events) :
    o.reference.view ≠ .reference heap.used := by
  intro hview
  obtain ⟨before, after, hsplit, hindex, -⟩ := h.consecutive.split ho hview
  rw [h.used, hsplit, length_cellsOf_middle] at hindex
  unfold headerCells at hindex
  omega

theorem add (h : heap.MadeBy events) {reference : Word}
    (hreference : Word.reference? heap.used = some reference) (shape : Word)
    (fields : Array Word) :
    (heap.add shape fields).MadeBy ((.alloc shape fields, .placed reference) :: events) := by
  have hview := Word.view_of_reference? hreference
  constructor
  · exact h.bounded
  · calc
      (heap.add shape fields).cells.toList =
          heap.cells.toList ++ (shape :: Word.mark :: fields.toList) := by
        simp [Heap.add]
      _ = cellsOf (objectsOf events ++ [⟨reference, shape, fields⟩]) := by
        rw [h.cells, cellsOf_append]
        simp [cellsOf, HeapObject.cells]
  · apply h.consecutive.concat
    rw [← h.used]
    exact hreference
  · intro o ho index offset hindex hoffset
    rcases List.mem_append.mp ho with hold | hnew
    · have hne : reference.view ≠ .reference index := by
        intro heq
        apply h.fresh hold
        rw [hindex, ← heq, hview]
      rw [lastWritten?, if_neg hne]
      exact h.written o hold index offset hindex hoffset
    · obtain rfl := List.mem_singleton.mp hnew
      rw [lastWritten?, if_pos hindex]
  · intro shape' fields' reference' hmem
    rcases List.mem_cons.mp hmem with heq | hmem
    · obtain ⟨hcall, hanswer⟩ := Prod.mk.inj heq
      obtain ⟨rfl, rfl⟩ := HeapCall.alloc.inj hcall
      obtain rfl := HeapAnswer.placed.inj hanswer
      exact ⟨_, List.mem_append_right _ (List.mem_singleton_self _), rfl, rfl, rfl⟩
    · obtain ⟨o, ho, hsame⟩ := h.placed shape' fields' reference' hmem
      exact ⟨o, List.mem_append_left _ ho, hsame⟩

/-- A call that makes no object and writes no field. -/
theorem idle (h : heap.MadeBy events) {event : HeapEvent} {heap' : Heap}
    (hobjects : objectsOf (event :: events) = objectsOf events)
    (hwritten : ∀ index offset, lastWritten? index offset (event :: events) =
      lastWritten? index offset events)
    (hevent : ∀ shape fields reference, (.alloc shape fields, .placed reference) ≠ event)
    (hcells : heap'.cells = heap.cells) (hbounded : heap'.capacity ≤ indexBound) :
    heap'.MadeBy (event :: events) := by
  constructor
  · exact hbounded
  · rw [hcells, hobjects]
    exact h.cells
  · rw [hobjects]
    exact h.consecutive
  · intro o ho index offset hindex hoffset
    rw [hobjects] at ho
    rw [hwritten]
    exact h.written o ho index offset hindex hoffset
  · intro shape fields reference hmem
    rw [hobjects]
    rcases List.mem_cons.mp hmem with heq | hmem
    · exact absurd heq (hevent shape fields reference)
    · exact h.placed shape fields reference hmem

theorem grow (h : heap.MadeBy events) :
    (heap.answer .grow).2.MadeBy ((.grow, (heap.answer .grow).1) :: events) := by
  simp only [answer]
  cases hgrow : heap.grow? with
  | none => exact h.idle rfl (fun _ _ ↦ rfl) (by simp) rfl h.bounded
  | some bigger =>
    obtain ⟨capacity, rfl, -, hcapacity⟩ := grow?_eq_some hgrow
    exact h.idle rfl (fun _ _ ↦ rfl) (by simp) rfl hcapacity

theorem alloc (h : heap.MadeBy events) (shape : Word) (fields : Array Word) :
    (heap.answer (.alloc shape fields)).2.MadeBy
      ((.alloc shape fields, (heap.answer (.alloc shape fields)).1) :: events) := by
  rcases answer_alloc h.bounded shape fields with ⟨-, hanswer⟩ | ⟨-, reference, hreference, hanswer⟩
  · rw [hanswer]
    exact h.idle rfl (fun _ _ ↦ rfl) (by simp) rfl h.bounded
  · rw [hanswer]
    exact h.add hreference shape fields

/-- A field of an object is a cell of the heap, and writing it writes the object. -/
theorem setCell (h : heap.MadeBy events) {o : HeapObject} (ho : o ∈ objectsOf events)
    {index offset : Nat} (hview : o.reference.view = .reference index)
    (hoffset : offset < o.fields.size) (word : Word) :
    ∃ cell, heap.cellOfField index offset = .ok cell ∧
      (heap.setCell cell word).cells.toList =
        cellsOf ((objectsOf events).map (.write index offset word)) := by
  obtain ⟨before, after, hsplit, hindex, hothers⟩ := h.consecutive.split ho hview
  have hcells : heap.cells.toList = cellsOf (before ++ o :: after) :=
    h.cells.trans (congrArg cellsOf hsplit)
  have hcell := cellOfField_of_middle hcells hoffset
  rw [hindex] at hcell
  refine ⟨index + headerCells + offset, hcell, ?_⟩
  calc
    (heap.setCell (index + headerCells + offset) word).cells.toList =
        heap.cells.toList.set (index + headerCells + offset) word := by
      unfold Heap.setCell
      exact Array.toList_setIfInBounds
    _ = cellsOf (before ++ o.write index offset word :: after) := by
      rw [hcells, ← hindex]
      exact set_cellsOf_middle (hindex ▸ hview) hoffset
    _ = cellsOf ((objectsOf events).map (.write index offset word)) := by
      rw [hsplit, map_write_middle hothers]

/-- A write within an object is carried out, and changes the one field that it names. -/
theorem write (h : heap.MadeBy events) {o : HeapObject} (ho : o ∈ objectsOf events)
    {index offset : Nat} (hview : o.reference.view = .reference index)
    (hoffset : offset < o.fields.size) (word : Word) :
    (heap.answer (.write index offset word)).1 = .written ∧
      (heap.answer (.write index offset word)).2.MadeBy
        ((.write index offset word, .written) :: events) := by
  obtain ⟨cell, hcell, hcells⟩ := h.setCell ho hview hoffset word
  have hanswer : heap.answer (.write index offset word) = (.written, heap.setCell cell word) := by
    simp only [answer, writeField, hcell]
  rw [hanswer]
  refine ⟨rfl, h.bounded, hcells, h.consecutive.map_write index offset word, ?_, ?_⟩
  · intro written hmem index' offset' hview' hoffset'
    obtain ⟨p, hp, rfl⟩ := List.mem_map.mp hmem
    rw [HeapObject.reference_write] at hview'
    rw [HeapObject.size_write] at hoffset'
    have hlast := h.written p hp index' offset' hview' hoffset'
    have hsame : p.reference.view = .reference index ∧ offset = offset' ↔
        index = index' ∧ offset = offset' := by
      rw [hview', Word.View.reference.injEq, eq_comm]
    rw [HeapObject.getElem?_write word hoffset', lastWritten?, hlast]
    simp only [hsame]
  · intro shape fields reference hmem
    obtain ⟨p, hp, hreference, hshape, hsize⟩ :=
      h.placed shape fields reference (List.mem_of_ne_of_mem (by simp) hmem)
    refine ⟨p.write index offset word, List.mem_map_of_mem hp, ?_, ?_, ?_⟩
    · rw [HeapObject.reference_write, hreference]
    · rw [HeapObject.shape_write, hshape]
    · rw [HeapObject.size_write, hsize]

/-- What one call does to a heap that a history within bounds led to. -/
theorem step (h : heap.MadeBy events) (call : HeapCall)
    (hbounds : InBounds ((call, (heap.answer call).1) :: events)) :
    (heap.answer call).2.MadeBy ((call, (heap.answer call).1) :: events) ∧
      ∀ failure, (heap.answer call).1 ≠ .failed failure := by
  cases call with
  | alloc shape fields =>
    refine ⟨h.alloc shape fields, fun failure ↦ ?_⟩
    rcases answer_alloc h.bounded shape fields with ⟨-, hanswer⟩ | ⟨-, reference, -, hanswer⟩
    all_goals simp [hanswer]
  | grow =>
    refine ⟨h.grow, fun failure ↦ ?_⟩
    simp only [answer]
    cases heap.grow? <;> simp
  | write index offset word =>
    obtain ⟨⟨o, ho, hview, hoffset⟩, -⟩ := hbounds
    obtain ⟨hanswer, hnext⟩ := h.write ho hview hoffset word
    rw [hanswer]
    exact ⟨hnext, by simp⟩

/-- A history within bounds leads to a heap of the objects it tells of, and no call fails. -/
theorem behind {id capacity : Nat} (hcapacity : capacity ≤ indexBound) {calls : List HeapCall}
    (hbounds : InBounds (Heap.events id capacity calls)) :
    (Heap.behind id capacity calls).MadeBy (Heap.events id capacity calls) ∧
      ∀ call failure, (call, .failed failure) ∉ Heap.events id capacity calls := by
  induction calls with
  | nil => exact ⟨new hcapacity, by simp [Heap.events, eventsOf]⟩
  | cons call earlier ih =>
    have hearlier : InBounds (Heap.events id capacity earlier) := by
      cases call with
      | alloc shape fields => exact hbounds
      | grow => exact hbounds
      | write index offset word => exact hbounds.2
    obtain ⟨hmade, hsafe⟩ := ih hearlier
    obtain ⟨hnext, hanswer⟩ := hmade.step call hbounds
    refine ⟨hnext, fun call' failure hmem ↦ ?_⟩
    rcases List.mem_cons.mp hmem with heq | hmem
    · exact hanswer failure (Prod.mk.inj heq).2.symm
    · exact hsafe call' failure hmem

/-- Every object has the shape it was made with, and what was last written to its fields. -/
theorem reads (h : heap.MadeBy events) {o : HeapObject} (ho : o ∈ objectsOf events) :
    ∃ index, o.reference.view = .reference index ∧ heap.shapeWord index = .ok o.shape ∧
      ∀ offset < o.fields.size, ∃ word, lastWritten? index offset events = some word ∧
        heap.readField index offset = .ok word := by
  obtain ⟨before, after, hsplit⟩ := List.append_of_mem ho
  have hcells : heap.cells.toList = cellsOf (before ++ o :: after) :=
    h.cells.trans (congrArg cellsOf hsplit)
  have hview := Word.view_of_reference? (h.consecutive before o after hsplit)
  refine ⟨_, hview, shapeWord_of_middle hcells, fun offset hoffset ↦ ?_⟩
  refine ⟨o.fields[offset], ?_, readField_of_middle hcells hoffset⟩
  rw [← h.written o ho _ offset hview hoffset, Array.getElem?_eq_getElem hoffset]

end MadeBy

end Heap

/-- A heap behaves like independent objects, whatever is asked of it as long as writes stay within
objects. An object is refused exactly where it does not fit, and nothing changes then; otherwise
it has a reference that no object had before. Every object has its shape and what was last written
to its fields, and the cells are those of all objects in the order they were made. The array of all
cells gives the same answers. -/
theorem objects_independent {id capacity : Nat} (hcapacity : capacity ≤ indexBound)
    {calls : List HeapCall} (hbounds : InBounds (Heap.events id capacity calls)) :
    let heap := Heap.behind id capacity calls
    let events := Heap.events id capacity calls
    let array := stateBehind CellArray.answer (.new capacity) calls
    (eventsOf CellArray.answer (.new capacity) calls = events ∧ array.Represents heap) ∧
      (∀ call failure, (call, .failed failure) ∉ events) ∧
      (∀ shape fields, heap.capacity < heap.used + headerCells + fields.size →
        heap.answer (.alloc shape fields) = (.refused, heap) ∧
          array.answer (.alloc shape fields) = (.refused, array)) ∧
      (∀ shape fields, heap.used + headerCells + fields.size ≤ heap.capacity →
        ∃ reference, (heap.answer (.alloc shape fields)).1 = .placed reference ∧
          ∀ shape' fields', (.alloc shape' fields', .placed reference) ∉ events) ∧
      (∀ shape fields reference, (.alloc shape fields, .placed reference) ∈ events →
        ∃ index, reference.view = .reference index ∧ heap.shapeWord index = .ok shape ∧
          ∀ offset < fields.size, ∃ word, lastWritten? index offset events = some word ∧
            heap.readField index offset = .ok word) ∧
      heap.cells.toList = cellsOf (objectsOf events) := by
  intro heap events array
  obtain ⟨hmade, hsafe⟩ := Heap.MadeBy.behind hcapacity hbounds
  obtain ⟨hevents, harray⟩ := CellArray.Represents.behind id capacity calls
  refine ⟨⟨hevents, harray⟩, hsafe, ?_, ?_, ?_, hmade.cells⟩
  · intro shape fields hfull
    rcases Heap.answer_alloc hmade.bounded shape fields with ⟨-, hanswer⟩ | ⟨hroom, -⟩
    · refine ⟨hanswer, if_neg ?_⟩
      rw [harray.used, harray.size]
      exact Nat.not_le_of_lt hfull
    · exact absurd hroom (Nat.not_le_of_lt hfull)
  · intro shape fields hroom
    rcases Heap.answer_alloc hmade.bounded shape fields with
      ⟨hfull, -⟩ | ⟨-, reference, hreference, hanswer⟩
    · exact absurd hroom (Nat.not_le_of_lt hfull)
    · refine ⟨reference, congrArg Prod.fst hanswer, fun shape' fields' hmem ↦ ?_⟩
      obtain ⟨o, ho, hsame, -⟩ := hmade.placed shape' fields' reference hmem
      apply hmade.fresh ho
      rw [hsame]
      exact Word.view_of_reference? hreference
  · intro shape fields reference hmem
    obtain ⟨o, ho, rfl, rfl, hsize⟩ := hmade.placed shape fields reference hmem
    rw [← hsize]
    exact hmade.reads ho

/-- A heap that grows from nothing: an object without fields fills it, and another one with two
fields, refused at first, has one of them written twice. -/
def growingCalls : List HeapCall :=
  [.write 2 1 (.small 9), .write 2 1 (.small 8), .alloc ⟨26⟩ #[.small 1, .small 2], .grow, .grow,
    .alloc ⟨26⟩ #[.small 1, .small 2], .alloc ⟨22⟩ #[], .grow, .alloc ⟨22⟩ #[]]

theorem growingCalls_independent :
    InBounds (Heap.events 1 0 growingCalls) ∧
      (Heap.events 1 0 growingCalls).map Prod.snd =
        [.written, .written, .placed ⟨8⟩, .grown, .grown, .refused, .placed ⟨0⟩, .grown,
          .refused] ∧
      (Heap.behind 1 0 growingCalls).shapeWord 2 = .ok ⟨26⟩ ∧
      (Heap.behind 1 0 growingCalls).readField 2 1 = .ok (.small 9) ∧
      (Heap.behind 1 0 growingCalls).cells.toList =
        [⟨22⟩, .mark, ⟨26⟩, .mark, .small 1, .small 9] := by
  have hbounds : InBounds (Heap.events 1 0 growingCalls) := by decide +kernel
  obtain ⟨-, -, -, -, hreads, hcells⟩ :=
    objects_independent (by decide : 0 ≤ indexBound) hbounds
  have hmem : (.alloc ⟨26⟩ #[.small 1, .small 2], .placed ⟨8⟩) ∈ Heap.events 1 0 growingCalls := by
    decide +kernel
  obtain ⟨index, hview, hshape, hfields⟩ := hreads _ _ _ hmem
  have hplace : (⟨8⟩ : Word).view = .reference 2 := by decide
  obtain rfl : index = 2 := Word.View.reference.inj (hview.symm.trans hplace)
  obtain ⟨word, hlast, hread⟩ := hfields 1 (by decide)
  have hword : lastWritten? 2 1 (Heap.events 1 0 growingCalls) = some (.small 9) := by
    decide +kernel
  obtain rfl := Option.some.inj (hlast.symm.trans hword)
  exact ⟨hbounds, by decide +kernel, hshape, hread, hcells.trans (by decide +kernel)⟩

end TandemScript
