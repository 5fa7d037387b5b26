import TandemScript.Failure
import TandemScript.Text.Quoted
import TandemScript.Value

/-!
# Values as text

The text of a value in output and messages, where strings stand for themselves, and its text in
dumps, where strings are quoted. Objects are written out to a fixed depth, so that the text of an
object that contains itself ends.
-/

namespace TandemScript

/-- How many objects may stand inside each other in a text. -/
def textDepth : Nat := 4

/-- The text of an object, with `depth` levels of objects left to write. -/
def Records.objectText (records : Records) : Nat → RecordId → String
  | 0, _ => "\x7b...\x7d"
  | depth + 1, id =>
    let entries := ((records.get? id).map Record.entries).getD []
    let parts := entries.map fun (name, value) ↦
      name ++ ": " ++ match value with
        | .undefined => "undefined"
        | .int n => toString n.toInt
        | .str s => s
        | .function f => "function " ++ f.name
        | .shape _ layout => layout.text
        | .record inner => records.objectText depth inner
        | .global => "global"
    "\x7b" ++ ", ".intercalate parts ++ "\x7d"

namespace Value

/-- The text of a value in output and messages. -/
def text (records : Records) : Value → String
  | undefined => "undefined"
  | int n => toString n.toInt
  | str s => s
  | function f => "function " ++ f.name
  | shape _ layout => layout.text
  | record id => records.objectText textDepth id
  | global => "global"

/-- The text of a value in dumps. -/
def dump (records : Records) : Value → String
  | str s => Text.quoted s
  | value => value.text records

end Value

/-- The complaint that a value is not of the type an operation needs. -/
def Failure.notA (expected : String) (records : Records) (found : Value) : Failure :=
  let shown := match found with
    | .str s => "\"" ++ s ++ "\""
    | value => value.text records ++ " (" ++ value.typeText ++ ")"
  ⟨.typeMismatch expected shown, {}⟩

end TandemScript
