import TandemScript.Failure

/-!
# Heaps

An object is a run of cells: its shape, a mark, and its fields. Objects are laid out one after the
other and never move or end, so only the cells in use are kept; the capacity says how many there
may be.
-/

namespace TandemScript

/-- Cells before the first field of an object. -/
def headerCells : Nat := 2

/-- The objects of one machine. -/
structure Heap where
  /-- Tells heaps apart. -/
  id : Nat
  capacity : Nat
  cells : Array Word := #[]
  deriving Inhabited

namespace Heap

/-- Cells in use. -/
def used (heap : Heap) : Nat :=
  heap.cells.size

/-- Whether an object with so many fields can be added. -/
def fits (heap : Heap) (fieldCount : Nat) : Bool :=
  heap.used + headerCells + fieldCount ≤ heap.capacity

/-- The reference of the next object, if one with so many fields fits and its place has one. -/
def place? (heap : Heap) (fieldCount : Nat) : Option Word :=
  if heap.fits fieldCount then Word.reference? heap.used else none

/-- The heap with an object behind all others. -/
def add (heap : Heap) (shape : Word) (fields : Array Word) : Heap :=
  { heap with cells := (heap.cells.push shape).push Word.mark ++ fields }

theorem used_add (heap : Heap) (shape : Word) (fields : Array Word) :
    (heap.add shape fields).used = heap.used + headerCells + fields.size := by
  simp [add, used, headerCells]

/-- Add an object, if there is a place for it. -/
@[inline] def alloc? (heap : Heap) (shape : Word) (fields : Array Word) : Option (Word × Heap) :=
  match heap.place? fields.size with
  | some reference => some (reference, heap.add shape fields)
  | none => none

/-- The heap with twice the room, as far as references reach. -/
def grow? (heap : Heap) : Option Heap :=
  if heap.capacity < indexBound then
    some { heap with capacity := min (2 * max heap.capacity 1) indexBound }
  else
    none

theorem capacity_lt_of_grow? {heap bigger : Heap} (h : heap.grow? = some bigger) :
    heap.capacity < indexBound ∧ heap.capacity < bigger.capacity := by
  unfold grow? at h
  split at h
  · obtain rfl := Option.some.inj h
    simp only
    omega
  · simp at h

/-- The heap grown until so many fields fit, or until it cannot grow. -/
def enlarge (heap : Heap) (fieldCount : Nat) : Heap :=
  if heap.fits fieldCount then heap
  else
    match _ : heap.grow? with
    | none => heap
    | some bigger => bigger.enlarge fieldCount
termination_by indexBound - heap.capacity
decreasing_by
  have := capacity_lt_of_grow? ‹heap.grow? = some bigger›
  omega

/-- The first cell of an object, where the header fits below the end of the cells in use. -/
def object (heap : Heap) (index : Nat) : Except Failure Nat :=
  if heap.used < index + headerCells then .error (.inconsistent (.danglingReference index))
  else .ok index

/-- The shape in the header of an object. -/
def shapeWord (heap : Heap) (index : Nat) : Except Failure Word := do
  let start ← heap.object index
  return heap.cells.getD start Word.undefined

/-- The cell of a field. Only the end of the cells in use bounds it, not that of the object. -/
def cellOfField (heap : Heap) (index offset : Nat) : Except Failure Nat := do
  let start ← heap.object index
  let cell := start + headerCells + offset
  if cell < heap.used then return cell
  else throw (.inconsistent (.fieldOutside offset index))

def readField (heap : Heap) (index offset : Nat) : Except Failure Word := do
  let cell ← heap.cellOfField index offset
  return heap.cells.getD cell Word.undefined

/-- The heap with another word in a cell. -/
def setCell (heap : Heap) (cell : Nat) (word : Word) : Heap :=
  { heap with cells := heap.cells.setIfInBounds cell word }

@[inline] def writeField (heap : Heap) (index offset : Nat) (word : Word) : Except Failure Heap :=
  match heap.cellOfField index offset with
  | .ok cell => .ok (heap.setCell cell word)
  | .error failure => .error failure

end Heap

end TandemScript
