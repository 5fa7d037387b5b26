import TandemScript.Json.Basic
import TandemScript.Json.Token

/-!
# Reading and writing JSON texts

`Json.read?` accepts exactly one value with blanks around it. Brackets are matched by an explicit
stack of open containers, so a text may nest to any depth. `Json.written` is the compact text of a
value.
-/

namespace TandemScript.Json

/-! ## Reading -/

/-- A container that is still open, with what it holds so far, last first. -/
inductive Frame where
  | items (done : List Json)
  | fields (done : List (Option String × Json)) (key : Option String)

/-- What the reader expects next. -/
inductive Expect where
  | value
  /-- The first item of an array, or its end. -/
  | valueOrClose
  /-- The first key of an object, or its end. -/
  | keyOrClose
  | key (done : List (Option String × Json))
  | colon (done : List (Option String × Json)) (key : Option String)
  /-- A value is complete: its container goes on or closes. -/
  | after (value : Json)

/-- The open containers, innermost first, and what may come next. -/
structure Progress where
  frames : List Frame
  expect : Expect

/-- The value of a token that is a value by itself. -/
def Token.value? : Token → Option Json
  | .null => some .null
  | .bool b => some (.bool b)
  | .integer n => some (.integer n)
  | .decimal text => some (.decimal text)
  | .string text => some (.string text)
  | _ => none

/-- The start of a value. -/
def Progress.startValue (frames : List Frame) : Token → Option Progress
  | .openArray => some ⟨.items [] :: frames, .valueOrClose⟩
  | .openObject => some ⟨frames, .keyOrClose⟩
  | token => token.value?.map fun value ↦ ⟨frames, .after value⟩

/-- What the innermost container does with a complete value and the token after it. -/
def Progress.goOn (value : Json) : List Frame → Token → Option Progress
  | .items done :: frames, .comma => some ⟨.items (value :: done) :: frames, .value⟩
  | .items done :: frames, .closeArray => some ⟨frames, .after (.array (value :: done).reverse)⟩
  | .fields done key :: frames, .comma => some ⟨frames, .key ((key, value) :: done)⟩
  | .fields done key :: frames, .closeObject =>
    some ⟨frames, .after (.object ((key, value) :: done).reverse)⟩
  | _, _ => none

/-- What one token does. -/
def Progress.advance (progress : Progress) (token : Token) : Option Progress :=
  match progress.expect, token with
  | .value, token => startValue progress.frames token
  | .valueOrClose, .closeArray =>
    match progress.frames with
    | .items done :: frames => some ⟨frames, .after (.array done.reverse)⟩
    | _ => none
  | .valueOrClose, token => startValue progress.frames token
  | .keyOrClose, .closeObject => some ⟨progress.frames, .after (.object [])⟩
  | .keyOrClose, .string key => some ⟨progress.frames, .colon [] key⟩
  | .key done, .string key => some ⟨progress.frames, .colon done key⟩
  | .colon done key, .colon => some ⟨.fields done key :: progress.frames, .value⟩
  | .after value, token => goOn value progress.frames token
  | _, _ => none

/-- The value that has been read, when nothing is left open. -/
def Progress.result? : Progress → Option Json
  | ⟨[], .after value⟩ => some value
  | _ => none

/-- The value that a list of tokens spells. -/
def ofTokens? (tokens : List Token) : Option Json := do
  let progress ← tokens.foldlM Progress.advance ⟨[], .value⟩
  progress.result?

/-- The value that a text spells. -/
def read? (text : String) : Option Json := do
  let tokens ← Token.scan text.toList
  ofTokens? tokens

/-! ## Writing -/

/-- Lists of tokens with commas between them. -/
def commaSeparated : List (List Token) → List Token
  | [] => []
  | [item] => item
  | item :: rest => item ++ .comma :: commaSeparated rest

mutual

/-- The tokens of a value. -/
def tokens : Json → List Token
  | .null => [.null]
  | .bool b => [.bool b]
  | .integer n => [.integer n]
  | .decimal text => [.decimal text]
  | .string text => [.string text]
  | .array items => .openArray :: commaSeparated (itemTokens items) ++ [.closeArray]
  | .object fields => .openObject :: commaSeparated (fieldTokens fields) ++ [.closeObject]

/-- The tokens of each item of an array. -/
def itemTokens : List Json → List (List Token)
  | [] => []
  | item :: rest => item.tokens :: itemTokens rest

/-- The tokens of each field of an object. -/
def fieldTokens : List (Option String × Json) → List (List Token)
  | [] => []
  | (key, value) :: rest => (.string key :: .colon :: value.tokens) :: fieldTokens rest

end

/-- The compact text of a value. -/
def written (value : Json) : String :=
  String.ofList (value.tokens.flatMap Token.written)

end TandemScript.Json
