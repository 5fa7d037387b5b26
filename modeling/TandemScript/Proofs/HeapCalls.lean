import TandemScript.Heap

/-!
# Calls on a heap

What a heap answers to a call, and to a whole history of calls from the new heap on. An array of all
cells, those that are free included, with a pointer to the first free one, answers every call in the
same way.
-/

namespace TandemScript

/-! ## Calls and answers -/

/-- A call on a heap. -/
inductive HeapCall where
  | alloc (shape : Word) (fields : Array Word)
  | grow
  | write (index offset : Nat) (word : Word)
  deriving DecidableEq

/-- The answer to a call on a heap. -/
inductive HeapAnswer where
  | placed (reference : Word)
  /-- The object does not fit. -/
  | refused
  | grown
  /-- References reach no further. -/
  | full
  | written
  | failed (failure : Failure)
  deriving DecidableEq

/-- A call with its answer. -/
abbrev HeapEvent := HeapCall × HeapAnswer

section History

variable {σ : Type} (answer : HeapCall → σ → HeapAnswer × σ) (start : σ)

/-- The state behind some calls, the latest of which comes first. -/
def stateBehind : List HeapCall → σ
  | [] => start
  | call :: earlier => (answer call (stateBehind earlier)).2

/-- The same calls, each with its answer. -/
def eventsOf : List HeapCall → List HeapEvent
  | [] => []
  | call :: earlier =>
    (call, (answer call (stateBehind answer start earlier)).1) :: eventsOf earlier

end History

namespace Heap

/-- A heap without objects. -/
def new (id capacity : Nat) : Heap :=
  { id, capacity }

/-- What the heap answers to a call, and the heap behind it. -/
def answer : HeapCall → Heap → HeapAnswer × Heap
  | .alloc shape fields, heap =>
    match heap.alloc? shape fields with
    | some (reference, heap') => (.placed reference, heap')
    | none => (.refused, heap)
  | .grow, heap =>
    match heap.grow? with
    | some bigger => (.grown, bigger)
    | none => (.full, heap)
  | .write index offset word, heap =>
    match heap.writeField index offset word with
    | .ok heap' => (.written, heap')
    | .error failure => (.failed failure, heap)

/-- The heap behind some calls on a new one, the latest of which comes first. -/
def behind (id capacity : Nat) (calls : List HeapCall) : Heap :=
  stateBehind answer (new id capacity) calls

/-- Some calls on a new heap with their answers, the latest of which comes first. -/
def events (id capacity : Nat) (calls : List HeapCall) : List HeapEvent :=
  eventsOf answer (new id capacity) calls

end Heap

/-! ## One array of cells -/

/-- All cells of a heap, and how many of them are in use. -/
structure CellArray where
  cells : Array Word
  used : Nat

/-- Write some words one behind the other. -/
def overwrite (cells : Array Word) (start : Nat) : List Word → Array Word
  | [] => cells
  | word :: words => overwrite (cells.setIfInBounds start word) (start + 1) words

namespace CellArray

def new (capacity : Nat) : CellArray :=
  ⟨Array.replicate capacity .undefined, 0⟩

/-- The first cell of an object, where its header lies below the first free cell. -/
def object (array : CellArray) (index : Nat) : Except Failure Nat :=
  if array.used < index + headerCells then .error (.inconsistent (.danglingReference index))
  else .ok index

def cellOfField (array : CellArray) (index offset : Nat) : Except Failure Nat := do
  let cell := (← array.object index) + headerCells + offset
  if cell < array.used then return cell
  else throw (.inconsistent (.fieldOutside offset index))

/-- What the array answers to a call, and the array behind it. -/
def answer : HeapCall → CellArray → HeapAnswer × CellArray
  | .alloc shape fields, array =>
    if array.used + headerCells + fields.size ≤ array.cells.size then
      match Word.reference? array.used with
      | some reference => (.placed reference, {
          cells := overwrite array.cells array.used (shape :: Word.mark :: fields.toList)
          used := array.used + headerCells + fields.size })
      | none => (.refused, array)
    else (.refused, array)
  | .grow, array =>
    if array.cells.size < indexBound then
      let added := min (2 * max array.cells.size 1) indexBound - array.cells.size
      (.grown, { array with cells := array.cells ++ Array.replicate added .undefined })
    else (.full, array)
  | .write index offset word, array =>
    match array.cellOfField index offset with
    | .ok cell => (.written, { array with cells := array.cells.setIfInBounds cell word })
    | .error failure => (.failed failure, array)

/-- The array has the cells of the heap, and behind them the room that is left. -/
structure Represents (array : CellArray) (heap : Heap) : Prop where
  size : array.cells.size = heap.capacity
  used : array.used = heap.used
  cells : array.cells.toList.take array.used = heap.cells.toList

end CellArray

/-! ## The array and the heap -/

theorem size_overwrite (cells : Array Word) (start : Nat) (words : List Word) :
    (overwrite cells start words).size = cells.size := by
  induction words generalizing cells start with
  | nil => rfl
  | cons word words ih => rw [overwrite, ih, Array.size_setIfInBounds]

/-- Up to the last word written there are the cells before the first one, and the words. -/
theorem take_overwrite {cells : Array Word} {start : Nat} {words : List Word}
    (h : start + words.length ≤ cells.size) :
    (overwrite cells start words).toList.take (start + words.length) =
      cells.toList.take start ++ words := by
  induction words generalizing cells start with
  | nil => simp [overwrite]
  | cons word words ih =>
    rw [List.length_cons] at h
    have hstart : start < cells.toList.length := by
      rw [Array.length_toList]
      omega
    have hlength : (cells.toList.take start).length = start :=
      List.length_take_of_le (Nat.le_of_lt hstart)
    have hwritten : (cells.setIfInBounds start word).toList.take (start + 1) =
        cells.toList.take start ++ [word] := by
      rw [Array.toList_setIfInBounds, List.take_set, List.take_succ_eq_append_getElem hstart,
        List.set_append_right _ _ (Nat.le_of_eq hlength), hlength, Nat.sub_self]
      rfl
    calc
      (overwrite cells start (word :: words)).toList.take (start + (word :: words).length) =
          (overwrite (cells.setIfInBounds start word) (start + 1) words).toList.take
            (start + 1 + words.length) := by
        rw [overwrite, List.length_cons, Nat.add_assoc start 1, Nat.add_comm 1]
      _ = (cells.setIfInBounds start word).toList.take (start + 1) ++ words := by
        apply ih
        rw [Array.size_setIfInBounds]
        omega
      _ = cells.toList.take start ++ word :: words := by
        rw [hwritten, List.append_assoc]
        rfl

namespace CellArray.Represents

variable {array : CellArray} {heap : Heap}

theorem new (id capacity : Nat) : (CellArray.new capacity).Represents (.new id capacity) where
  size := Array.size_replicate
  used := rfl
  cells := rfl

theorem used_le (h : array.Represents heap) : array.used ≤ array.cells.size := by
  have hlength := congrArg List.length h.cells
  rw [List.length_take, Array.length_toList, Array.length_toList] at hlength
  have hused := h.used
  unfold Heap.used at hused
  omega

theorem cellOfField (h : array.Represents heap) (index offset : Nat) :
    array.cellOfField index offset = heap.cellOfField index offset := by
  unfold CellArray.cellOfField Heap.cellOfField CellArray.object Heap.object
  rw [h.used]

/-- The answers are the same, and what is behind them is alike. -/
def AnswersAlike (ofArray : HeapAnswer × CellArray) (ofHeap : HeapAnswer × Heap) : Prop :=
  ofArray.1 = ofHeap.1 ∧ ofArray.2.Represents ofHeap.2

theorem alloc (h : array.Represents heap) (shape : Word) (fields : Array Word) :
    AnswersAlike (array.answer (.alloc shape fields)) (heap.answer (.alloc shape fields)) := by
  simp only [CellArray.answer, Heap.answer, Heap.alloc?, Heap.place?, Heap.fits, h.used, h.size,
    decide_eq_true_eq]
  by_cases hroom : heap.used + headerCells + fields.size ≤ heap.capacity
  · simp only [if_pos hroom]
    cases hreference : Word.reference? heap.used with
    | none => exact ⟨rfl, h⟩
    | some reference =>
      have hend : heap.used + (shape :: Word.mark :: fields.toList).length =
          heap.used + headerCells + fields.size := by
        simp only [List.length_cons, Array.length_toList, headerCells]
        omega
      have hcells := h.cells
      rw [h.used] at hcells
      refine ⟨rfl, ?_, (heap.used_add shape fields).symm, ?_⟩
      · rw [size_overwrite, h.size]
        rfl
      · calc
          (overwrite array.cells heap.used (shape :: Word.mark :: fields.toList)).toList.take
                (heap.used + headerCells + fields.size) =
              array.cells.toList.take heap.used ++ shape :: Word.mark :: fields.toList := by
            rw [← hend]
            apply take_overwrite
            rw [hend, h.size]
            exact hroom
          _ = heap.cells.toList ++ shape :: Word.mark :: fields.toList := by rw [hcells]
          _ = (heap.add shape fields).cells.toList := by simp [Heap.add]
  · simp only [if_neg hroom]
    exact ⟨rfl, h⟩

theorem grow (h : array.Represents heap) :
    AnswersAlike (array.answer .grow) (heap.answer .grow) := by
  simp only [CellArray.answer, Heap.answer, Heap.grow?, h.size]
  by_cases hroom : heap.capacity < indexBound
  · simp only [if_pos hroom]
    refine ⟨rfl, ?_, h.used, ?_⟩
    · rw [Array.size_append, Array.size_replicate, h.size]
      change heap.capacity + (min (2 * max heap.capacity 1) indexBound - heap.capacity) =
        min (2 * max heap.capacity 1) indexBound
      omega
    · rw [Array.toList_append, List.take_append_of_le_length]
      · exact h.cells
      · exact h.used_le
  · simp only [if_neg hroom]
    exact ⟨rfl, h⟩

theorem write (h : array.Represents heap) (index offset : Nat) (word : Word) :
    AnswersAlike (array.answer (.write index offset word))
      (heap.answer (.write index offset word)) := by
  simp only [CellArray.answer, Heap.answer, Heap.writeField, h.cellOfField]
  cases heap.cellOfField index offset with
  | error failure => exact ⟨rfl, h⟩
  | ok cell =>
    refine ⟨rfl, ?_, ?_, ?_⟩
    · rw [Array.size_setIfInBounds, h.size]
      rfl
    · rw [h.used]
      exact Array.size_setIfInBounds.symm
    · unfold Heap.setCell
      rw [Array.toList_setIfInBounds, Array.toList_setIfInBounds, List.take_set, h.cells]

theorem answer (h : array.Represents heap) (call : HeapCall) :
    AnswersAlike (array.answer call) (heap.answer call) := by
  cases call with
  | alloc shape fields => exact h.alloc shape fields
  | grow => exact h.grow
  | write index offset word => exact h.write index offset word

/-- Array and heap go through a history alike. -/
theorem behind (id capacity : Nat) (calls : List HeapCall) :
    eventsOf CellArray.answer (.new capacity) calls = Heap.events id capacity calls ∧
      (stateBehind CellArray.answer (.new capacity) calls).Represents
        (.behind id capacity calls) := by
  induction calls with
  | nil => exact ⟨rfl, .new id capacity⟩
  | cons call earlier ih =>
    obtain ⟨hevents, hearlier⟩ := ih
    obtain ⟨hanswer, hnext⟩ := hearlier.answer call
    refine ⟨?_, hnext⟩
    calc
      eventsOf CellArray.answer (.new capacity) (call :: earlier) =
          (call, (Heap.answer call (.behind id capacity earlier)).1) ::
            Heap.events id capacity earlier := by
        rw [eventsOf, hanswer, hevents]
      _ = Heap.events id capacity (call :: earlier) := rfl

end CellArray.Represents

end TandemScript
