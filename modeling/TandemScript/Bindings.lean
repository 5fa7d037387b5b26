import TandemScript.Value

/-!
# Bindings and activations

Names bound to values: the global environment, and the variables of one function activation of the
tree evaluator. Activations are kept for good, because functions written in them may outlive them.
A chain of activations is an `Env`; a name means its nearest binding along the chain.
-/

namespace TandemScript

/-- Names bound to values, each once. -/
structure Bindings where
  entries : List (String × Value) := []
  deriving Inhabited

namespace Bindings

/-- The value of a name in a list of bindings. -/
def find? (name : String) : List (String × Value) → Option Value
  | [] => none
  | (key, value) :: rest => if key = name then some value else find? name rest

/-- A list of bindings with another value for a name, in its place or at the end. -/
def put (name : String) (value : Value) : List (String × Value) → List (String × Value)
  | [] => [(name, value)]
  | (key, old) :: rest =>
    if key = name then (key, value) :: rest else (key, old) :: put name value rest

def get? (bindings : Bindings) (name : String) : Option Value :=
  find? name bindings.entries

def set (bindings : Bindings) (name : String) (value : Value) : Bindings :=
  ⟨put name value bindings.entries⟩

theorem find?_put (name other : String) (value : Value) (entries : List (String × Value)) :
    find? other (put name value entries) =
      if name = other then some value else find? other entries := by
  induction entries with
  | nil => rfl
  | cons entry rest ih =>
    obtain ⟨key, old⟩ := entry
    by_cases hkey : key = name
    · subst hkey
      by_cases hother : key = other <;> simp [put, find?, hother]
    · by_cases hother : key = other
      · subst hother
        simp [put, find?, hkey, Ne.symm hkey]
      · simp [put, find?, hkey, hother, ih]

theorem get?_set (bindings : Bindings) (name other : String) (value : Value) :
    (bindings.set name value).get? other =
      if name = other then some value else bindings.get? other :=
  find?_put name other value bindings.entries

/-- Bind each of some names to a value, later ones over earlier ones. -/
def setAll (bindings : Bindings) (entries : List (String × Value)) : Bindings :=
  entries.foldl (fun bindings (name, value) ↦ bindings.set name value) bindings

/-- Bind those of some names that have no value yet to the undefined value. -/
def declareUndefined (bindings : Bindings) (names : List String) : Bindings :=
  names.foldl (fun bindings name ↦
    if (bindings.get? name).isSome then bindings else bindings.set name .undefined) bindings

/-- The variables of a function that is entered: the receiver, the arguments, and every variable
that the body declares. -/
def activation (receiver : Value) (params : List String) (args : List Value)
    (declared : List String) : Bindings :=
  ((set {} "this" receiver).setAll (params.zip args)).declareUndefined declared

end Bindings

/-- The variables of all activations, at the numbers of the activations. -/
structure Frames where
  cells : Array Bindings := #[]
  deriving Inhabited

namespace Frames

/-- A new activation. -/
def add (frames : Frames) (bindings : Bindings) : FrameId × Frames :=
  (frames.cells.size, ⟨frames.cells.push bindings⟩)

/-- The value of a name in one activation. -/
def getIn? (frames : Frames) (id : FrameId) (name : String) : Option Value := do
  (← frames.cells[id]?).get? name

/-- Bind a name in one activation. -/
def bind (frames : Frames) (id : FrameId) (name : String) (value : Value) : Frames :=
  ⟨frames.cells.modify id fun bindings ↦ bindings.set name value⟩

/-- The nearest activation that binds a name. -/
def owner? (frames : Frames) (name : String) : Env → Option FrameId
  | [] => none
  | id :: outer => if (frames.getIn? id name).isSome then some id else frames.owner? name outer

/-- The value that a name has along a chain. -/
def lookup? (frames : Frames) (env : Env) (name : String) : Option Value := do
  frames.getIn? (← frames.owner? name env) name

/-- Another value for the nearest binding of a name, if there is one. -/
def assign? (frames : Frames) (env : Env) (name : String) (value : Value) : Option Frames :=
  (frames.owner? name env).map fun id ↦ frames.bind id name value

end Frames

end TandemScript
