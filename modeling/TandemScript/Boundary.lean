import Std.Data.HashMap
import TandemScript.Dictionary
import TandemScript.Heap

/-!
# The boundary of a machine

Values outside a machine, words inside it. A value without a word of its own gets an entry of the
dictionary; a record that was copied from this heap goes back to the object it was copied from. A
reference leaves the machine as a copy of everything that can be reached from it, with one record
for each object, so that shared objects stay shared and cycles stay cycles.
-/

namespace TandemScript

/-- The word of a value. -/
def encode (records : Records) (heap : Heap) (value : Value) : EStateM Failure Dictionary Word :=
  match value with
  | .int n =>
    match Word.ofInt? n with
    | some word => return word
    | none => Dictionary.intern value
  | .record id =>
    match records.origin? id with
    | some origin =>
      if origin.heap = heap.id then
        match Word.reference? origin.index with
        | some word => return word
        | none => throw (.inconsistent .referenceOutOfRange)
      else Dictionary.intern value
    | none => Dictionary.intern value
  | value => Dictionary.intern value

/-! ## Copying objects out -/

/-- An object whose record exists but has no field values yet. -/
structure Unfilled where
  index : Nat
  record : RecordId
  size : Nat

/-- The state of a copy under way. -/
structure Copying where
  records : Records
  /-- The records that stand for objects, by the references of the objects. -/
  copies : Std.HashMap Nat RecordId := {}
  /-- The latest first. -/
  pending : List Unfilled := []

abbrev Copy := EStateM Failure Copying

/-- The record that stands for an object. On first sight it is made and queued. -/
def copyOf (dict : Dictionary) (heap : Heap) (index : Nat) : Copy RecordId := do
  match (← get).copies[index]? with
  | some record => return record
  | none =>
    let shape ← MonadExcept.ofExcept (heap.shapeWord index >>= dict.shape)
    modifyGet fun ⟨records, copies, pending⟩ ↦
      let (record, records) := records.add (.unfilled shape ⟨heap.id, index⟩)
      (record, ⟨records, copies.insert index record, ⟨index, record, shape.size⟩ :: pending⟩)

/-- The value of a word that is not a reference. -/
def plainValue (dict : Dictionary) (word : Word) : Except Failure Value :=
  match word.asSmall? with
  | some n => .ok (.int (.ofNat n))
  | none => dict.value word

/-- The value of a word where the object that it refers to is copied, too. -/
def copyWord (dict : Dictionary) (heap : Heap) (word : Word) : Copy Value :=
  match word.view with
  | .reference index => return .record (← copyOf dict heap index)
  | _ => MonadExcept.ofExcept (plainValue dict word)

/-- Copy the fields of an object from an offset on. -/
def copyFields (dict : Dictionary) (heap : Heap) (object : Unfilled) (offset : Nat) :
    Nat → Copy Unit
  | 0 => return
  | count + 1 => do
    let word ← MonadExcept.ofExcept (heap.readField object.index offset)
    let value ← copyWord dict heap word
    modify fun ⟨records, copies, pending⟩ ↦
      ⟨records.setSlot object.record offset value, copies, pending⟩
    copyFields dict heap object (offset + 1) count

/-- Fill in records until none is queued, or `rounds` of them. -/
def copyPending (dict : Dictionary) (heap : Heap) : (rounds : Nat) → Copy Unit
  | 0 => return
  | rounds + 1 => do
    match (← get).pending with
    | [] => return
    | object :: pending =>
      modify fun state ↦ { state with pending }
      copyFields dict heap object 0 object.size
      copyPending dict heap rounds

/-- The record that stands for an object, with everything that can be reached from it. An object
takes at least one cell of the heap, so that its cells in use bound the number of records. -/
def copyOut (dict : Dictionary) (heap : Heap) (index : Nat) : Copy Value := do
  let record ← copyOf dict heap index
  copyPending dict heap heap.used
  return .record record

/-- The value of a word. -/
def decode (dict : Dictionary) (heap : Heap) (word : Word) : EStateM Failure Records Value :=
  match word.view with
  | .reference index => fun records ↦
    match copyOut dict heap index { records } with
    | .ok value state => .ok value state.records
    | .error failure state => .error failure state.records
  | _ => MonadExcept.ofExcept (plainValue dict word)

end TandemScript
