/-!
# JSON tokens

The words of a JSON text: brackets, separators, literals, numbers and strings. `Token.written` is
the compact spelling of a token; `Token.scan` splits a text into tokens, skipping blanks.
-/

namespace TandemScript.Json

/-- A word of a JSON text. -/
inductive Token where
  | openArray
  | closeArray
  | openObject
  | closeObject
  | colon
  | comma
  | null
  | bool (value : Bool)
  | integer (value : Int)
  | decimal (text : List Char)
  | string (text : Option String)
  deriving DecidableEq, Repr, Inhabited

/-! ## Strings -/

/-- A character between the quotes of a string, or half of a surrogate pair given by an escape. -/
inductive Piece where
  | char (c : Char)
  | unit (code : Nat)
  deriving DecidableEq, Repr

/-- The value of a hexadecimal digit of either case. -/
def hexDigit? (c : Char) : Option Nat :=
  if '0' ≤ c ∧ c ≤ '9' then some (c.toNat - '0'.toNat)
  else if 'a' ≤ c ∧ c ≤ 'f' then some (c.toNat - 'a'.toNat + 10)
  else if 'A' ≤ c ∧ c ≤ 'F' then some (c.toNat - 'A'.toNat + 10)
  else none

/-- The value of four hexadecimal digits. -/
def hexUnit? (a b c d : Char) : Option Nat := do
  let a ← hexDigit? a
  let b ← hexDigit? b
  let c ← hexDigit? c
  let d ← hexDigit? d
  return ((a * 16 + b) * 16 + c) * 16 + d

/-- Whether a code is the first half of a surrogate pair. -/
def isHighSurrogate (code : Nat) : Bool :=
  0xd800 ≤ code && code < 0xdc00

/-- Whether a code is the second half of a surrogate pair. -/
def isLowSurrogate (code : Nat) : Bool :=
  0xdc00 ≤ code && code < 0xe000

/-- The piece that a four-digit escape stands for. -/
def Piece.ofCode (code : Nat) : Piece :=
  if isHighSurrogate code || isLowSurrogate code then .unit code else .char (Char.ofNat code)

/-- The character that a one-letter escape stands for. -/
def shortEscape? : Char → Option Char
  | '"' => some '"'
  | '\\' => some '\\'
  | '/' => some '/'
  | 'b' => some '\x08'
  | 'f' => some '\x0c'
  | 'n' => some '\n'
  | 'r' => some '\r'
  | 't' => some '\t'
  | _ => none

/-- The pieces up to the closing quote, and the text after it. Control characters have to be
escaped. -/
def scanPieces : List Char → Option (List Piece × List Char)
  | [] => none
  | '"' :: rest => some ([], rest)
  | '\\' :: 'u' :: a :: b :: c :: d :: rest => do
    let code ← hexUnit? a b c d
    let (pieces, rest) ← scanPieces rest
    return (.ofCode code :: pieces, rest)
  | '\\' :: letter :: rest => do
    let c ← shortEscape? letter
    let (pieces, rest) ← scanPieces rest
    return (.char c :: pieces, rest)
  | c :: rest =>
    if c.toNat < 0x20 then none
    else do
      let (pieces, rest) ← scanPieces rest
      return (.char c :: pieces, rest)

/-- The characters that pieces stand for, where every half of a surrogate pair is followed by its
other half. -/
def joinPieces : List Piece → Option (List Char)
  | [] => some []
  | .char c :: rest => (c :: ·) <$> joinPieces rest
  | .unit high :: .unit low :: rest =>
    if isHighSurrogate high && isLowSurrogate low then
      (Char.ofNat (0x10000 + (high - 0xd800) * 0x400 + (low - 0xdc00)) :: ·) <$> joinPieces rest
    else
      none
  | .unit _ :: _ => none

/-! ## Numbers -/

/-- Whether a character is a decimal digit. -/
def isDigit (c : Char) : Bool :=
  '0' ≤ c && c ≤ '9'

/-- The value of a run of decimal digits. -/
def digitsValue (digits : List Char) : Nat :=
  digits.foldl (fun value c ↦ value * 10 + (c.toNat - '0'.toNat)) 0

/-- A run of digits that is not empty and starts with zero only if it is zero. -/
def isWholePart : List Char → Bool
  | [] => false
  | [_] => true
  | c :: _ => c != '0'

/-- The length of the fraction at the front of a text, or nothing where a point stands without
digits. -/
def fractionLength? : List Char → Option Nat
  | '.' :: rest =>
    let digits := rest.takeWhile isDigit
    if digits.isEmpty then none else some (digits.length + 1)
  | _ => some 0

/-- The length of the exponent at the front of a text, or nothing where its mark stands without
digits. -/
def exponentLength? (text : List Char) : Option Nat :=
  match text with
  | mark :: rest =>
    if mark = 'e' ∨ mark = 'E' then
      let signed : Bool := match rest with
        | sign :: _ => sign = '+' ∨ sign = '-'
        | [] => false
      let digits := (if signed then rest.drop 1 else rest).takeWhile isDigit
      if digits.isEmpty then none else some (digits.length + if signed then 2 else 1)
    else
      some 0
  | [] => some 0

/-- The token of a number: its whole part decides its value where nothing else follows. -/
def numberToken (negative : Bool) (whole tail : List Char) : Token :=
  let magnitude := digitsValue whole
  if tail.isEmpty ∧ ¬ (negative ∧ magnitude = 0) then
    .integer (if negative then -magnitude else magnitude)
  else
    .decimal ((if negative then ['-'] else []) ++ whole ++ tail)

/-- The number without its sign at the front of a text, and what follows it. -/
def scanUnsigned (negative : Bool) (text : List Char) : Option (Token × List Char) := do
  let whole := text.takeWhile isDigit
  let afterWhole := text.dropWhile isDigit
  if isWholePart whole then
    let fraction ← fractionLength? afterWhole
    let exponent ← exponentLength? (afterWhole.drop fraction)
    let length := fraction + exponent
    return (numberToken negative whole (afterWhole.take length), afterWhole.drop length)
  else
    none

/-- The number at the front of a text and what follows it. -/
def scanNumber : List Char → Option (Token × List Char)
  | '-' :: rest => scanUnsigned true rest
  | text => scanUnsigned false text

theorem length_scanUnsigned {negative : Bool} {text rest : List Char} {token : Token}
    (hscan : scanUnsigned negative text = some (token, rest)) : rest.length < text.length := by
  have hsplit := congrArg List.length (List.takeWhile_append_dropWhile (p := isDigit) (l := text))
  simp only [List.length_append] at hsplit
  have hwhole : 0 < (text.takeWhile isDigit).length := by
    cases hcase : text.takeWhile isDigit with
    | nil => simp [scanUnsigned, hcase, isWholePart] at hscan
    | cons => simp
  simp only [scanUnsigned, Option.bind_eq_bind] at hscan
  split at hscan
  · simp only [Option.bind_eq_some_iff, Option.pure_def, Option.some.injEq, Prod.mk.injEq] at hscan
    obtain ⟨_, _, _, _, _, rfl⟩ := hscan
    simp only [List.length_drop]
    omega
  · simp at hscan

theorem length_scanNumber {text rest : List Char} {token : Token}
    (hscan : scanNumber text = some (token, rest)) : rest.length < text.length := by
  unfold scanNumber at hscan
  split at hscan
  · have hlt := length_scanUnsigned hscan
    simp only [List.length_cons]
    omega
  · exact length_scanUnsigned hscan

theorem length_scanPieces {text : List Char} {pieces : List Piece} {rest : List Char}
    (hscan : scanPieces text = some (pieces, rest)) : rest.length < text.length := by
  induction text using scanPieces.induct generalizing pieces with
  | case1 => simp [scanPieces] at hscan
  | case2 =>
    simp only [scanPieces, Option.some.injEq, Prod.mk.injEq] at hscan
    simp [← hscan.2]
  | case3 a b c d tail ih =>
    simp only [scanPieces, Option.bind_eq_bind, Option.bind_eq_some_iff, Option.pure_def,
      Option.some.injEq, Prod.mk.injEq, Prod.exists] at hscan
    obtain ⟨_, _, inner, last, hinner, _, rfl⟩ := hscan
    have hlt := ih hinner
    simp only [List.length_cons]
    omega
  | case4 letter tail hnot ih =>
    rw [scanPieces] at hscan
    · simp only [Option.bind_eq_bind, Option.bind_eq_some_iff, Option.pure_def,
        Option.some.injEq, Prod.mk.injEq, Prod.exists] at hscan
      obtain ⟨_, _, inner, last, hinner, _, rfl⟩ := hscan
      have hlt := ih hinner
      simp only [List.length_cons]
      omega
    · exact hnot
  | case5 c tail hquote hunit hshort hlow =>
    rw [scanPieces] at hscan <;> simp_all
  | case6 c tail hquote hunit hshort hhigh ih =>
    rw [scanPieces] at hscan
    · simp only [hhigh, if_false, Option.bind_eq_bind, Option.bind_eq_some_iff, Option.pure_def,
        Option.some.injEq, Prod.mk.injEq, Prod.exists] at hscan
      obtain ⟨inner, last, hinner, _, rfl⟩ := hscan
      have hlt := ih hinner
      simp only [List.length_cons]
      omega
    all_goals assumption

/-! ## Scanning -/

/-- Whether a character may stand between tokens. -/
def isBlank (c : Char) : Bool :=
  c = ' ' || c = '\t' || c = '\n' || c = '\r'

/-- The first token of a text that does not start with a blank, and what follows it. -/
def Token.scanOne : List Char → Option (Token × List Char)
  | '[' :: rest => some (.openArray, rest)
  | ']' :: rest => some (.closeArray, rest)
  | '\x7b' :: rest => some (.openObject, rest)
  | '\x7d' :: rest => some (.closeObject, rest)
  | ':' :: rest => some (.colon, rest)
  | ',' :: rest => some (.comma, rest)
  | 'n' :: 'u' :: 'l' :: 'l' :: rest => some (.null, rest)
  | 't' :: 'r' :: 'u' :: 'e' :: rest => some (.bool true, rest)
  | 'f' :: 'a' :: 'l' :: 's' :: 'e' :: rest => some (.bool false, rest)
  | '"' :: rest => do
    let (pieces, rest) ← scanPieces rest
    return (.string (String.ofList <$> joinPieces pieces), rest)
  | text => scanNumber text

theorem Token.length_scanOne {text rest : List Char} {token : Token}
    (hscan : Token.scanOne text = some (token, rest)) : rest.length < text.length := by
  unfold Token.scanOne at hscan
  split at hscan
  case h_10 tail =>
    simp only [Option.bind_eq_bind, Option.bind_eq_some_iff, Option.pure_def, Option.some.injEq,
      Prod.mk.injEq, Prod.exists] at hscan
    obtain ⟨pieces, last, hpieces, _, rfl⟩ := hscan
    have hlt := length_scanPieces hpieces
    simp only [List.length_cons]
    omega
  case h_11 => exact length_scanNumber hscan
  all_goals
    simp only [Option.some.injEq, Prod.mk.injEq] at hscan
    obtain ⟨_, rfl⟩ := hscan
    simp only [List.length_cons]
    omega

/-- The tokens of a text. -/
def Token.scan (text : List Char) : Option (List Token) :=
  match text with
  | [] => some []
  | c :: tail =>
    if isBlank c then Token.scan tail
    else
      match _hscan : Token.scanOne (c :: tail) with
      | none => none
      | some (token, rest) => (token :: ·) <$> Token.scan rest
termination_by text.length
decreasing_by
  · simp
  · exact Token.length_scanOne _hscan

/-! ## Writing -/

/-- A hexadecimal digit in lower case. -/
def hexDigit (n : Nat) : Char :=
  Nat.digitChar n

/-- How one character of a string is written: the quote, the backslash and the control characters
are escaped, all others stand for themselves. -/
def writtenChar (c : Char) : List Char :=
  match c with
  | '"' => ['\\', '"']
  | '\\' => ['\\', '\\']
  | '\x08' => ['\\', 'b']
  | '\x0c' => ['\\', 'f']
  | '\n' => ['\\', 'n']
  | '\r' => ['\\', 'r']
  | '\t' => ['\\', 't']
  | _ =>
    if c.toNat < 0x20 then
      ['\\', 'u', '0', '0', hexDigit (c.toNat / 16), hexDigit (c.toNat % 16)]
    else
      [c]

/-- How an integer is written. -/
def writtenInteger (n : Int) : List Char :=
  if n < 0 then '-' :: Nat.toDigits 10 n.natAbs else Nat.toDigits 10 n.natAbs

/-- The compact spelling of a token. A string without a text is spelled with a lone half of a
surrogate pair. -/
def Token.written : Token → List Char
  | .openArray => ['[']
  | .closeArray => [']']
  | .openObject => ['\x7b']
  | .closeObject => ['\x7d']
  | .colon => [':']
  | .comma => [',']
  | .null => "null".toList
  | .bool true => "true".toList
  | .bool false => "false".toList
  | .integer n => writtenInteger n
  | .decimal text => text
  | .string (some text) => '"' :: text.toList.flatMap writtenChar ++ ['"']
  | .string none => "\"\\ud800\"".toList

end TandemScript.Json
