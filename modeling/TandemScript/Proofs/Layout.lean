import TandemScript.Heap
import TandemScript.Proofs.Computation
import TandemScript.Proofs.Interning

/-!
# The layout of a heap

The cells in use are those of consecutive objects, oldest first. Each object starts with the word
of its shape and a mark. Objects lie apart, so that writing a field changes no other cell of any
object, and adding an object changes none at all.
-/

namespace TandemScript

theorem lastIndexOf?_lt {α : Type} [DecidableEq α] {a : α} {l : List α} {i : Nat}
    (h : lastIndexOf? a l = some i) : i < l.length := by
  induction l generalizing i with
  | nil => simp [lastIndexOf?] at h
  | cons b rest ih =>
    unfold lastIndexOf? at h
    split at h
    · next j hj =>
      obtain rfl := Option.some.inj h
      exact Nat.succ_lt_succ (ih hj)
    · split at h
      · obtain rfl := Option.some.inj h
        exact Nat.succ_pos _
      · simp at h

theorem Shape.lt_of_slot? {shape : Shape} {name : String} {slot : Nat}
    (h : shape.slot? name = some slot) : slot < shape.size :=
  lastIndexOf?_lt h

/-- Where an object of a heap starts, and its shape. -/
structure Placed where
  start : Nat
  shape : Shape

namespace Placed

/-- The first cell behind an object. -/
def stop (o : Placed) : Nat :=
  o.start + headerCells + o.shape.size

/-- The cell of a field. -/
def cell (o : Placed) (offset : Nat) : Nat :=
  o.start + headerCells + offset

theorem start_lt_stop (o : Placed) : o.start < o.stop := by
  unfold stop headerCells
  omega

end Placed

/-- Objects one after the other, from a cell to the cell behind them. -/
def LaidOut : Nat → List Placed → Nat → Prop
  | start, [], stop => start = stop
  | start, o :: rest, stop => o.start = start ∧ LaidOut o.stop rest stop

namespace LaidOut

variable {start stop : Nat} {objects : List Placed}

theorem append (h : LaidOut start objects stop) (o : Placed) (ho : o.start = stop) :
    LaidOut start (objects ++ [o]) o.stop := by
  induction objects generalizing start with
  | nil => exact ⟨ho.trans h.symm, rfl⟩
  | cons first rest ih => exact ⟨h.1, ih h.2⟩

theorem start_le (h : LaidOut start objects stop) {o : Placed} (ho : o ∈ objects) :
    start ≤ o.start := by
  induction objects generalizing start with
  | nil => simp at ho
  | cons first rest ih =>
    rcases List.mem_cons.mp ho with rfl | hrest
    · exact Nat.le_of_eq h.1.symm
    · have hle := ih h.2 hrest
      have hlt := first.start_lt_stop
      have hstart := h.1
      omega

theorem le (h : LaidOut start objects stop) : start ≤ stop := by
  induction objects generalizing start with
  | nil => exact Nat.le_of_eq h
  | cons first rest ih =>
    have hle := ih h.2
    have hlt := first.start_lt_stop
    have hstart := h.1
    omega

theorem stop_le (h : LaidOut start objects stop) {o : Placed} (ho : o ∈ objects) :
    o.stop ≤ stop := by
  induction objects generalizing start with
  | nil => simp at ho
  | cons first rest ih =>
    rcases List.mem_cons.mp ho with rfl | hrest
    · exact h.2.le
    · exact ih h.2 hrest

/-- An object ends before every later one starts. -/
theorem pairwise (h : LaidOut start objects stop) :
    objects.Pairwise fun o later ↦ o.stop ≤ later.start := by
  induction objects generalizing start with
  | nil => exact .nil
  | cons first rest ih => exact .cons (fun _ hlater ↦ h.2.start_le hlater) (ih h.2)

/-- Two different objects lie apart. -/
theorem apart (h : LaidOut start objects stop) {i j : Nat} {o other : Placed}
    (ho : objects[i]? = some o) (hother : objects[j]? = some other) (hne : i ≠ j) :
    o.stop ≤ other.start ∨ other.stop ≤ o.start := by
  obtain ⟨hi, rfl⟩ := List.getElem?_eq_some_iff.mp ho
  obtain ⟨hj, rfl⟩ := List.getElem?_eq_some_iff.mp hother
  have hpairwise := List.pairwise_iff_getElem.mp h.pairwise
  rcases Nat.lt_or_gt_of_ne hne with hlt | hlt
  · exact .inl (hpairwise i j hi hj hlt)
  · exact .inr (hpairwise j i hj hi hlt)

/-- Objects are told apart by their first cells. -/
theorem index_unique (h : LaidOut start objects stop) {i j : Nat} {o other : Placed}
    (ho : objects[i]? = some o) (hother : objects[j]? = some other)
    (hstart : o.start = other.start) : i = j := by
  by_cases hne : i = j
  · exact hne
  · have hapart := h.apart ho hother hne
    have hlt := o.start_lt_stop
    have hlt' := other.start_lt_stop
    omega

theorem eq_of_start (h : LaidOut start objects stop) {o other : Placed} (ho : o ∈ objects)
    (hother : other ∈ objects) (hstart : o.start = other.start) : o = other := by
  obtain ⟨i, hi⟩ := List.mem_iff_getElem?.mp ho
  obtain ⟨j, hj⟩ := List.mem_iff_getElem?.mp hother
  obtain rfl := h.index_unique hi hj hstart
  exact Option.some.inj (hi.symm.trans hj)

end LaidOut

namespace Heap

theorem lt_used_of_cellOfField {heap : Heap} {index offset cell : Nat}
    (h : heap.cellOfField index offset = .ok cell) : cell < heap.used := by
  unfold cellOfField at h
  obtain ⟨start, -, h⟩ := exists_of_bind_eq_ok h
  simp only at h
  split at h
  · next hlt =>
    obtain rfl := Except.ok.inj h
    exact hlt
  · cases h

/-- The cells of the heap are those of some objects, which start with the words of their shapes. -/
structure Tiled (heap : Heap) (dict : Dictionary) (objects : List Placed) : Prop where
  laid : LaidOut 0 objects heap.used
  header : ∀ o ∈ objects, ∃ word, heap.cells[o.start]? = some word ∧ dict.shape word = .ok o.shape

/-- The objects have their marks, and there are references to them. -/
structure Holds (heap : Heap) (dict : Dictionary) (objects : List Placed) : Prop extends
    heap.Tiled dict objects where
  mark : ∀ o ∈ objects, heap.cells[o.start + 1]? = some Word.mark
  referable : ∀ o ∈ objects, o.start < indexBound

/-- The word in a field of an object. -/
def field? (heap : Heap) (o : Placed) (offset : Nat) : Option Word :=
  heap.cells[o.cell offset]?

namespace Tiled

variable {heap : Heap} {dict dict' : Dictionary} {objects : List Placed} {o : Placed}
  {offset : Nat}

theorem mono (h : heap.Tiled dict objects) (hgrows : dict.GrowsTo dict') :
    heap.Tiled dict' objects where
  laid := h.laid
  header o ho := by
    obtain ⟨word, hword, hshape⟩ := h.header o ho
    exact ⟨word, hword, hgrows.shape hshape⟩

theorem object (h : heap.Tiled dict objects) (ho : o ∈ objects) :
    heap.object o.start = .ok o.start := by
  have hle := h.laid.stop_le ho
  unfold Placed.stop at hle
  unfold Heap.object
  rw [if_neg (by omega)]

theorem layout (h : heap.Tiled dict objects) (ho : o ∈ objects) :
    (heap.shapeWord o.start >>= dict.shape) = .ok o.shape := by
  obtain ⟨word, hword, hshape⟩ := h.header o ho
  unfold shapeWord
  rw [h.object ho]
  change dict.shape (heap.cells.getD o.start Word.undefined) = _
  rw [Array.getD_eq_getD_getElem?, hword]
  exact hshape

theorem cell_lt (h : heap.Tiled dict objects) (ho : o ∈ objects) (hoffset : offset < o.shape.size) :
    o.cell offset < heap.used := by
  have hle := h.laid.stop_le ho
  unfold Placed.stop at hle
  unfold Placed.cell
  omega

theorem cellOfField (h : heap.Tiled dict objects) (ho : o ∈ objects)
    (hoffset : offset < o.shape.size) :
    heap.cellOfField o.start offset = .ok (o.cell offset) := by
  unfold Heap.cellOfField
  rw [h.object ho]
  exact if_pos (h.cell_lt ho hoffset)

theorem readField (h : heap.Tiled dict objects) (ho : o ∈ objects)
    (hoffset : offset < o.shape.size) :
    ∃ word, heap.readField o.start offset = .ok word ∧ heap.field? o offset = some word := by
  have hlt := h.cell_lt ho hoffset
  have hcell : heap.cells[o.cell offset]? = some heap.cells[o.cell offset] :=
    Array.getElem?_eq_getElem hlt
  refine ⟨_, ?_, hcell⟩
  unfold Heap.readField
  rw [h.cellOfField ho hoffset]
  change Except.ok (heap.cells.getD (o.cell offset) Word.undefined) = _
  rw [Array.getD_eq_getD_getElem?, hcell]
  rfl

theorem writeField (h : heap.Tiled dict objects) (ho : o ∈ objects)
    (hoffset : offset < o.shape.size) (word : Word) :
    heap.writeField o.start offset word = .ok (heap.setCell (o.cell offset) word) := by
  unfold Heap.writeField
  rw [h.cellOfField ho hoffset]

/-- A field cell lies in no header, and in no field but itself. -/
theorem cell_ne_header (h : heap.Tiled dict objects) {other : Placed} (ho : o ∈ objects)
    (hother : other ∈ objects) (hoffset : offset < o.shape.size) :
    o.cell offset ≠ other.start ∧ o.cell offset ≠ other.start + 1 := by
  obtain ⟨i, hi⟩ := List.mem_iff_getElem?.mp ho
  obtain ⟨j, hj⟩ := List.mem_iff_getElem?.mp hother
  by_cases hij : i = j
  · subst hij
    obtain rfl := Option.some.inj (hi.symm.trans hj)
    unfold Placed.cell headerCells
    omega
  · have hapart := h.laid.apart hi hj hij
    unfold Placed.stop headerCells at hapart
    unfold Placed.cell headerCells
    omega

theorem cell_inj (h : heap.Tiled dict objects) {i j : Nat} {other : Placed} {offset' : Nat}
    (ho : objects[i]? = some o) (hother : objects[j]? = some other)
    (hoffset : offset < o.shape.size) (hoffset' : offset' < other.shape.size)
    (hcell : o.cell offset = other.cell offset') : i = j ∧ offset = offset' := by
  by_cases hij : i = j
  · subst hij
    obtain rfl := Option.some.inj (ho.symm.trans hother)
    unfold Placed.cell at hcell
    exact ⟨rfl, by omega⟩
  · have hapart := h.laid.apart ho hother hij
    unfold Placed.stop at hapart
    unfold Placed.cell at hcell
    omega

/-- The objects stay where they are when a field is written. -/
theorem setCell (h : heap.Tiled dict objects) (ho : o ∈ objects) (hoffset : offset < o.shape.size)
    (word : Word) : (heap.setCell (o.cell offset) word).Tiled dict objects where
  laid := by
    have hused : (heap.setCell (o.cell offset) word).used = heap.used :=
      Array.size_setIfInBounds
    rw [hused]
    exact h.laid
  header other hother := by
    have hne := (h.cell_ne_header ho hother hoffset).1
    obtain ⟨found, hfound, hshape⟩ := h.header other hother
    refine ⟨found, ?_, hshape⟩
    unfold Heap.setCell
    rw [Array.getElem?_setIfInBounds_ne hne]
    exact hfound

theorem field?_setCell (h : heap.Tiled dict objects) (ho : o ∈ objects)
    (hoffset : offset < o.shape.size) (word : Word) :
    (heap.setCell (o.cell offset) word).field? o offset = some word := by
  unfold Heap.setCell field?
  rw [Array.getElem?_setIfInBounds_self_of_lt (h.cell_lt ho hoffset)]

theorem field?_setCell_ne (h : heap.Tiled dict objects) {i j : Nat} {other : Placed}
    {offset' : Nat} (ho : objects[i]? = some o) (hother : objects[j]? = some other)
    (hoffset : offset < o.shape.size) (hoffset' : offset' < other.shape.size) (word : Word)
    (hne : i ≠ j ∨ offset ≠ offset') :
    (heap.setCell (o.cell offset) word).field? other offset' = heap.field? other offset' := by
  have hcell : o.cell offset ≠ other.cell offset' := by
    intro hcell
    have hinj := h.cell_inj ho hother hoffset hoffset' hcell
    omega
  unfold Heap.setCell field?
  rw [Array.getElem?_setIfInBounds_ne hcell]

end Tiled

namespace Holds

variable {heap : Heap} {dict dict' : Dictionary} {objects : List Placed} {o : Placed}
  {offset : Nat}

theorem mono (h : heap.Holds dict objects) (hgrows : dict.GrowsTo dict') :
    heap.Holds dict' objects :=
  ⟨h.toTiled.mono hgrows, h.mark, h.referable⟩

theorem withCapacity (h : heap.Holds dict objects) (capacity : Nat) :
    Holds { heap with capacity } dict objects :=
  ⟨⟨h.laid, h.header⟩, h.mark, h.referable⟩

theorem setCell (h : heap.Holds dict objects) (ho : o ∈ objects) (hoffset : offset < o.shape.size)
    (word : Word) : (heap.setCell (o.cell offset) word).Holds dict objects where
  toTiled := h.toTiled.setCell ho hoffset word
  mark other hother := by
    have hne := (h.cell_ne_header ho hother hoffset).2
    unfold Heap.setCell
    rw [Array.getElem?_setIfInBounds_ne hne]
    exact h.mark other hother
  referable := h.referable

theorem getElem?_add (heap : Heap) (shape : Word) (fields : Array Word) {index : Nat}
    (hindex : index < heap.used) : (heap.add shape fields).cells[index]? = heap.cells[index]? := by
  unfold Heap.used at hindex
  unfold Heap.add
  rw [Array.getElem?_append_left (by simp only [Array.size_push]; omega),
    Array.getElem?_push_lt (by simp only [Array.size_push]; omega),
    Array.getElem_push_lt hindex, Array.getElem?_eq_getElem hindex]

theorem getElem?_add_start (heap : Heap) (shape : Word) (fields : Array Word) :
    (heap.add shape fields).cells[heap.used]? = some shape := by
  unfold Heap.add Heap.used
  rw [Array.getElem?_append_left (by simp only [Array.size_push]; omega),
    Array.getElem?_push_lt (by simp only [Array.size_push]; omega), Array.getElem_push_eq]

theorem getElem?_add_mark (heap : Heap) (shape : Word) (fields : Array Word) :
    (heap.add shape fields).cells[heap.used + 1]? = some Word.mark := by
  have hsize : heap.cells.size + 1 = (heap.cells.push shape).size := (Array.size_push shape).symm
  unfold Heap.add Heap.used
  rw [Array.getElem?_append_left (by simp only [Array.size_push]; omega), hsize,
    Array.getElem?_push_size]

/-- A new object lies behind all others. -/
theorem add (h : heap.Holds dict objects) {shapeWord : Word} {shape : Shape}
    (hshape : dict.shape shapeWord = .ok shape) {fields : Array Word}
    (hsize : fields.size = shape.size) (hreferable : heap.used < indexBound) :
    (heap.add shapeWord fields).Holds dict (objects ++ [⟨heap.used, shape⟩]) := by
  have hold {o : Placed} (ho : o ∈ objects) : o.start + 1 < heap.used := by
    have hle := h.laid.stop_le ho
    unfold Placed.stop headerCells at hle
    omega
  refine ⟨⟨?_, ?_⟩, ?_, ?_⟩
  · rw [used_add, hsize]
    exact h.laid.append _ rfl
  · intro o ho
    rcases List.mem_append.mp ho with ho | ho
    · obtain ⟨word, hword, hword'⟩ := h.header o ho
      refine ⟨word, ?_, hword'⟩
      rw [getElem?_add heap _ _ (Nat.lt_of_succ_lt (hold ho))]
      exact hword
    · obtain rfl := List.mem_singleton.mp ho
      exact ⟨shapeWord, getElem?_add_start heap shapeWord fields, hshape⟩
  · intro o ho
    rcases List.mem_append.mp ho with ho | ho
    · rw [getElem?_add heap _ _ (hold ho)]
      exact h.mark o ho
    · obtain rfl := List.mem_singleton.mp ho
      exact getElem?_add_mark heap shapeWord fields
  · intro o ho
    rcases List.mem_append.mp ho with ho | ho
    · exact h.referable o ho
    · obtain rfl := List.mem_singleton.mp ho
      exact hreferable

theorem field?_add_old (h : heap.Holds dict objects) (ho : o ∈ objects)
    (hoffset : offset < o.shape.size) (shapeWord : Word) (fields : Array Word) :
    (heap.add shapeWord fields).field? o offset = heap.field? o offset :=
  getElem?_add heap _ _ (h.cell_lt ho hoffset)

theorem field?_add_new (heap : Heap) (shapeWord : Word) (shape : Shape) (fields : Array Word)
    (offset : Nat) :
    (heap.add shapeWord fields).field? ⟨heap.used, shape⟩ offset = fields[offset]? := by
  unfold Heap.add field? Placed.cell Heap.used headerCells
  rw [Array.getElem?_append_right (by simp only [Array.size_push]; omega)]
  simp only [Array.size_push]
  congr 1
  omega

end Holds

end Heap

/-! ## Valid words -/

/-- The word is a number, or names an entry of the dictionary, or refers to an object. -/
def Word.Valid (dict : Dictionary) (objects : List Placed) (word : Word) : Prop :=
  match word.view with
  | .small _ => True
  | .entry index => index < dict.size
  | .reference index => ∃ o ∈ objects, o.start = index

namespace Word.Valid

variable {dict dict' : Dictionary} {objects objects' : List Placed} {word : Word}

instance : Decidable (word.Valid dict objects) :=
  match h : word.view with
  | .small _ => isTrue (by unfold Valid; simp only [h])
  | .entry index => decidable_of_iff (index < dict.size) (by unfold Valid; simp only [h])
  | .reference index =>
    decidable_of_iff (∃ o ∈ objects, o.start = index) (by unfold Valid; simp only [h])

theorem mono (h : word.Valid dict objects) (hgrows : dict.GrowsTo dict')
    (hsubset : objects ⊆ objects') : word.Valid dict' objects' := by
  unfold Valid at h ⊢
  cases hview : word.view with
  | small n => trivial
  | entry index =>
    simp only [hview] at h
    exact Nat.lt_of_lt_of_le h hgrows.size_le
  | reference index =>
    simp only [hview] at h
    obtain ⟨o, ho, hstart⟩ := h
    exact ⟨o, hsubset ho, hstart⟩

theorem of_small {n : Nat} (hn : n < 0x80000000) : (small n).Valid dict objects := by
  unfold Valid
  rw [view_small hn]
  trivial

theorem of_value {value : Value} (h : dict.value word = .ok value) : word.Valid dict objects := by
  obtain ⟨index, hview, hget⟩ := Dictionary.value_eq_ok.mp h
  unfold Valid
  rw [hview]
  exact (Array.getElem?_eq_some_iff.mp hget).1

theorem of_reference {o : Placed} (ho : o ∈ objects) (h : word.view = .reference o.start) :
    word.Valid dict objects := by
  unfold Valid
  rw [h]
  exact ⟨o, ho, rfl⟩

end Word.Valid

/-- The cells of the heap are those of some objects, and all references there lead to these. -/
structure Heap.Regular (heap : Heap) (dict : Dictionary) (objects : List Placed) : Prop extends
    heap.Tiled dict objects where
  valid : ∀ word ∈ heap.cells, word.Valid dict objects

theorem Heap.Regular.setCell {heap : Heap} {dict : Dictionary} {objects : List Placed} {o : Placed}
    (h : heap.Regular dict objects) (ho : o ∈ objects) {offset : Nat}
    (hoffset : offset < o.shape.size) {word : Word} (hword : word.Valid dict objects) :
    (heap.setCell (o.cell offset) word).Regular dict objects where
  toTiled := h.toTiled.setCell ho hoffset word
  valid other hother := by
    rcases Array.mem_or_eq_of_mem_setIfInBounds hother with hold | rfl
    · exact h.valid other hold
    · exact hword

/-- The cells of the heap are those of some objects, and all of them are valid words. -/
structure Heap.Sound (heap : Heap) (dict : Dictionary) (objects : List Placed) : Prop extends
    heap.Holds dict objects where
  valid : ∀ word ∈ heap.cells, word.Valid dict objects

namespace Heap.Sound

variable {heap : Heap} {dict dict' : Dictionary} {objects : List Placed} {o : Placed}

theorem empty (id capacity : Nat) : Heap.Sound { id, capacity } dict [] where
  laid := rfl
  header := by simp
  mark := by simp
  referable := by simp
  valid := by simp

theorem mono (h : heap.Sound dict objects) (hgrows : dict.GrowsTo dict') :
    heap.Sound dict' objects :=
  ⟨h.toHolds.mono hgrows, fun word hword ↦ (h.valid word hword).mono hgrows fun _ ho ↦ ho⟩

theorem withCapacity (h : heap.Sound dict objects) (capacity : Nat) :
    Sound { heap with capacity } dict objects :=
  ⟨h.toHolds.withCapacity capacity, h.valid⟩

theorem regular (h : heap.Sound dict objects) : heap.Regular dict objects :=
  ⟨h.toTiled, h.valid⟩

theorem setCell (h : heap.Sound dict objects) (ho : o ∈ objects) {offset : Nat}
    (hoffset : offset < o.shape.size) {word : Word} (hword : word.Valid dict objects) :
    (heap.setCell (o.cell offset) word).Sound dict objects :=
  ⟨h.toHolds.setCell ho hoffset word, (h.regular.setCell ho hoffset hword).valid⟩

theorem add (h : heap.Sound dict objects) {shapeWord : Word} {shape : Shape}
    (hshape : dict.shape shapeWord = .ok shape) {fields : Array Word}
    (hsize : fields.size = shape.size) (hreferable : heap.used < indexBound)
    (hfields : ∀ word ∈ fields, word.Valid dict objects) :
    (heap.add shapeWord fields).Sound dict (objects ++ [⟨heap.used, shape⟩]) where
  toHolds := h.toHolds.add hshape hsize hreferable
  valid word hword := by
    have hsubset : objects ⊆ objects ++ [⟨heap.used, shape⟩] := List.subset_append_left _ _
    obtain ⟨id, hvalue⟩ := Dictionary.value_of_shape hshape
    rcases Array.mem_append.mp hword with hword | hword
    · rcases Array.mem_push.mp hword with hword | rfl
      · rcases Array.mem_push.mp hword with hword | rfl
        · exact (h.valid word hword).mono (.refl dict) hsubset
        · exact .of_value hvalue
      · exact .of_small (by omega)
    · exact (hfields word hword).mono (.refl dict) hsubset

end Heap.Sound

end TandemScript
