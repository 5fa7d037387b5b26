/-!
# Shapes

A shape lays names out in consecutive slots. It is the scope of a function at compile time, where
names are variables, and the layout of an object at run time, where names are fields. A name that
was pushed again is found at its last slot.
-/

namespace TandemScript

/-- The position of the last element equal to `a`. -/
def lastIndexOf? {α : Type} [DecidableEq α] (a : α) : List α → Option Nat
  | [] => none
  | b :: rest =>
    match lastIndexOf? a rest with
    | some i => some (i + 1)
    | none => if b = a then some 0 else none

/-- Names in slot order. -/
structure Shape where
  names : List String
  deriving DecidableEq, Repr, Inhabited

namespace Shape

def empty : Shape := ⟨[]⟩

def size (shape : Shape) : Nat :=
  shape.names.length

/-- The slot of a name. -/
def slot? (shape : Shape) (name : String) : Option Nat :=
  lastIndexOf? name shape.names

/-- Give a name a slot of its own, whether it has one or not. -/
def append (shape : Shape) (name : String) : Shape :=
  ⟨shape.names ++ [name]⟩

/-- Give a name a slot unless it has one. -/
def declare (shape : Shape) (name : String) : Shape :=
  if name ∈ shape.names then shape else shape.append name

/-- Give each of some names a slot unless it has one. -/
def declareAll (shape : Shape) (names : List String) : Shape :=
  names.foldl declare shape

/-- The shape of some names, repeated ones in their first place. -/
def ofNames (names : List String) : Shape :=
  empty.declareAll names

/-- A shape in messages and listings. -/
def text (shape : Shape) : String :=
  let slots := shape.names.mapIdx fun i name ↦ s!"{name}: {i}"
  "shape\x7b" ++ ", ".intercalate slots ++ "\x7d"

/-- The nearest of some nested scopes, innermost first, that has the name: how many scopes are
passed on the way to it, and the slot there. -/
def nearest? (name : String) : List Shape → Option (Nat × Nat)
  | [] => none
  | scope :: outer =>
    match scope.slot? name with
    | some slot => some (0, slot)
    | none => (nearest? name outer).map fun (hops, slot) ↦ (hops + 1, slot)

end Shape

/-! ## Object literals -/

/-- Which of some keys are not given again later. -/
def keepLast : List String → List Bool
  | [] => []
  | key :: rest => (!rest.contains key) :: keepLast rest

/-- The keys in the order of their last occurrences. -/
def lastOccurrences : List String → List String
  | [] => []
  | key :: rest => if rest.contains key then lastOccurrences rest else key :: lastOccurrences rest

/-- The layout of the object that a literal with these keys creates. -/
def Shape.ofKeys (keys : List String) : Shape :=
  ⟨lastOccurrences keys⟩

end TandemScript
