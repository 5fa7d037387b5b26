import TandemScript.Value.Text
import TandemScript.Word

/-!
# Dictionaries

The constants of compiled code and every value of a running machine that no other word can hold:
strings, negative integers, functions, shapes and records from outside. Entries are only added, at
the end, and equal ones share a place. The first entry is always the undefined value.
-/

namespace TandemScript

/-- Whether two values share an entry: numbers and strings by content, the rest by what they were
created as. Unlike in the language, two copies of one heap object are two values here. -/
def Value.sharesEntry : Value → Value → Bool
  | .undefined, .undefined => true
  | .global, .global => true
  | .int a, .int b => a = b
  | .str a, .str b => a = b
  | .function a, .function b => a.id = b.id
  | .shape a _, .shape b _ => a = b
  | .record a, .record b => a = b
  | _, _ => false

/-- A table of values without repetitions. -/
structure Dictionary where
  entries : Array Value

namespace Dictionary

def new : Dictionary := ⟨#[.undefined]⟩

instance : Inhabited Dictionary := ⟨new⟩

def size (dict : Dictionary) : Nat :=
  dict.entries.size

def get? (dict : Dictionary) (index : Nat) : Option Value :=
  dict.entries[index]?

/-- The place of a value. -/
def indexOf? (dict : Dictionary) (value : Value) : Option Nat :=
  dict.entries.findIdx? value.sharesEntry

/-- The word of a value, which is added at the end if it has no entry yet. A full dictionary
refuses new values. -/
def intern (value : Value) : EStateM Failure Dictionary Word := fun dict ↦
  match dict.indexOf? value with
  | some index =>
    match Word.entry? index with
    | some word => .ok word dict
    | none => .error (.inconsistent .dictionaryFull) dict
  | none =>
    match Word.entry? dict.size with
    | some word => .ok word ⟨dict.entries.push value⟩
    | none => .error (.inconsistent .dictionaryFull) dict

/-- The entry that a word names. -/
def value (dict : Dictionary) (word : Word) : Except Failure Value :=
  match word.asEntry? with
  | none => .error (.inconsistent (.notAnEntry word))
  | some index =>
    match dict.get? index with
    | none => .error (.inconsistent (.entryOutOfRange index))
    | some value => .ok value

/-- The string that a word names. -/
def string (dict : Dictionary) (word : Word) : Except Failure String := do
  match ← dict.value word with
  | .str s => return s
  | other => throw (.inconsistent (.wrongEntry "name" other.typeText))

/-- The shape that a word names. -/
def shape (dict : Dictionary) (word : Word) : Except Failure Shape := do
  match ← dict.value word with
  | .shape _ shape => return shape
  | other => throw (.inconsistent (.wrongEntry "shape" other.typeText))

/-- The function that a word names. -/
def function (dict : Dictionary) (word : Word) : Except Failure Function := do
  match ← dict.value word with
  | .function f => return f
  | other => throw (.inconsistent (.wrongEntry "function" other.typeText))

end Dictionary

end TandemScript
