/-!
# JSON values

The values of the JSON data format as this library reads and writes them. Numbers that are not
integers are never computed with, so they keep their text.
-/

namespace TandemScript

/-- A JSON value. The text of a string, and the key of a field, is missing where its escapes leave
half of a surrogate pair alone: such a string has the right form but denotes no text. -/
inductive Json where
  | null
  | bool (value : Bool)
  | integer (value : Int)
  /-- A number with a fraction or an exponent, and minus zero. -/
  | decimal (text : List Char)
  | string (text : Option String)
  | array (items : List Json)
  | object (fields : List (Option String × Json))
  deriving Inhabited

namespace Json

/-- A string with a text. -/
def text (s : String) : Json :=
  .string (some s)

/-- An object whose keys all have a text. -/
def record (fields : List (String × Json)) : Json :=
  .object (fields.map fun (key, value) ↦ (some key, value))

/-- A list of texts. -/
def texts (items : List String) : Json :=
  .array (items.map text)

/-- A natural number. -/
def natural (n : Nat) : Json :=
  .integer n

end Json

end TandemScript
