import TandemScript.Word

/-!
# Limits of a run
-/

namespace TandemScript

/-- What happens when an allocation does not fit into the heap. -/
inductive HeapPolicy where
  /-- The run fails. -/
  | abort
  /-- The heap doubles, up to the greatest reference. -/
  | grow
  deriving DecidableEq, Repr, Inhabited

def HeapPolicy.text : HeapPolicy → String
  | .abort => "Abort"
  | .grow => "Grow"

/-- The limits of a run, in cells. -/
structure Config where
  stackSize : Nat := 65536
  heapSize : Nat := 65536
  policy : HeapPolicy := .abort
  deriving DecidableEq, Repr, Inhabited

/-- No limit lets calls nest deeper than this. -/
def maxNestedCalls : Nat := 10000

/-- How many cells of the stack one nested call is charged with. -/
def cellsPerNestedCall : Nat := 16

namespace Config

/-- How deeply calls may nest: as the stack allows, at least one deep, at most `maxNestedCalls`. -/
def nestingLimit (config : Config) : Nat :=
  min (max (config.stackSize / cellsPerNestedCall) 1) maxNestedCalls

/-- The cells that the stack of a machine may hold: as configured, as far as they can be named. -/
def stackCells (config : Config) : Nat :=
  min config.stackSize indexBound

/-- The cells that the heap of a machine starts with. -/
def heapCells (config : Config) : Nat :=
  min config.heapSize indexBound

end Config

end TandemScript
