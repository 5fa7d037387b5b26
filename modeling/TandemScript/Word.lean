/-!
# Machine words

A word has 32 bits and carries its kind in the lowest ones: an odd word is a natural number below
`2 ^ 31`, a multiple of four refers to an object of the heap, and the other even words name an
entry of the dictionary.
-/

namespace TandemScript

/-- Exclusive bound of heap references and of dictionary indices: two to the power of 30. -/
def indexBound : Nat := 0x40000000

/-- A word of the machine. -/
structure Word where
  bits : UInt32
  deriving DecidableEq, Repr, Inhabited

namespace Word

/-- What a word says. -/
inductive View where
  | small (n : Nat)
  | reference (index : Nat)
  | entry (index : Nat)
  deriving DecidableEq, Repr

/-- The word of a number; only numbers below `2 ^ 31` are told apart. -/
def small (n : Nat) : Word :=
  ⟨.ofNat (2 * n + 1)⟩

/-- The word of an integer that is not negative. -/
def ofInt? (n : Int32) : Option Word :=
  if n < 0 then none else some (small n.toInt.toNat)

/-- The word that refers to the object at a cell of the heap. -/
def reference? (index : Nat) : Option Word :=
  if index < indexBound then some ⟨.ofNat (4 * index)⟩ else none

/-- The word that names an entry of the dictionary. -/
def entry? (index : Nat) : Option Word :=
  if index < indexBound then some ⟨.ofNat (4 * index + 2)⟩ else none

/-- The first dictionary entry, which is always the undefined value. -/
def undefined : Word := ⟨2⟩

/-- The number zero, the only word that a conditional takes for false. -/
def zero : Word := small 0

/-- The mark of every object header. -/
def mark : Word := small 0

/-- Read the kind of a word off its lowest bits. -/
def view (w : Word) : View :=
  let n := w.bits.toNat
  if n % 2 = 1 then .small (n / 2)
  else if n % 4 = 2 then .entry (n / 4)
  else .reference (n / 4)

theorem view_small {n : Nat} (hn : n < 0x80000000) : (small n).view = .small n := by
  have hbits : (UInt32.ofNat (2 * n + 1)).toNat = 2 * n + 1 := by
    rw [UInt32.toNat_ofNat']
    omega
  simp only [view, small, hbits]
  rw [if_pos (by omega)]
  congr 1
  omega

theorem view_of_reference? {index : Nat} {w : Word} (h : reference? index = some w) :
    w.view = .reference index := by
  unfold reference? indexBound at h
  split at h
  · obtain rfl := Option.some.inj h
    have hbits : (UInt32.ofNat (4 * index)).toNat = 4 * index := by
      rw [UInt32.toNat_ofNat']
      omega
    simp only [view, hbits]
    rw [if_neg (by omega), if_neg (by omega)]
    congr 1
    omega
  · simp at h

theorem view_of_entry? {index : Nat} {w : Word} (h : entry? index = some w) :
    w.view = .entry index := by
  unfold entry? indexBound at h
  split at h
  · obtain rfl := Option.some.inj h
    have hbits : (UInt32.ofNat (4 * index + 2)).toNat = 4 * index + 2 := by
      rw [UInt32.toNat_ofNat']
      omega
    simp only [view, hbits]
    rw [if_neg (by omega), if_pos (by omega)]
    congr 1
    omega
  · simp at h

def asSmall? (w : Word) : Option Nat :=
  match w.view with
  | .small n => some n
  | _ => none

def asEntry? (w : Word) : Option Nat :=
  match w.view with
  | .entry index => some index
  | _ => none

/-- The text of a word in dumps. -/
def text (w : Word) : String :=
  match w.view with
  | .small n => s!"#{n}"
  | .reference index => s!"@{index}"
  | .entry index => s!"d{index}"

end Word

end TandemScript
