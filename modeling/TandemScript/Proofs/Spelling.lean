import TandemScript.Json.Reader

/-!
# Texts of JSON values

The compact text of a JSON value is scanned into the tokens that it was written from, and these are
read as the value again. A string has to have a text for this, and a number to be an integer: other
numbers keep a text of their own, which need not be a number at all.
-/

namespace TandemScript.Json

/-! ## Strings -/

theorem hexUnit?_control (n : Nat) (h : n < 0x20) :
    hexUnit? '0' '0' (hexDigit (n / 16)) (hexDigit (n % 16)) = some n := by
  revert n
  decide

theorem Piece.ofCode_toNat {c : Char} (h : c.toNat < 0x20) : Piece.ofCode c.toNat = .char c := by
  have hhigh : isHighSurrogate c.toNat = false := by
    unfold isHighSurrogate
    rw [decide_eq_false (by omega), Bool.false_and]
  have hlow : isLowSurrogate c.toNat = false := by
    unfold isLowSurrogate
    rw [decide_eq_false (by omega), Bool.false_and]
  unfold ofCode
  rw [hhigh, hlow, Char.ofNat_toNat]
  rfl

/-- The written form of a character is scanned as this character. -/
theorem scanPieces_writtenChar (c : Char) (rest : List Char) :
    scanPieces (writtenChar c ++ rest) =
      (scanPieces rest).bind fun (pieces, rest) ↦ some (.char c :: pieces, rest) := by
  unfold writtenChar
  split
  case h_8 hquote hbackslash _ _ _ _ _ =>
    split
    · next hcontrol =>
      change scanPieces ('\\' :: 'u' :: '0' :: '0' :: hexDigit (c.toNat / 16) ::
        hexDigit (c.toNat % 16) :: rest) = _
      rw [scanPieces, hexUnit?_control c.toNat hcontrol]
      simp only [Option.bind_eq_bind, Option.bind_some, Piece.ofCode_toNat hcontrol]
      rfl
    · next hplain =>
      change scanPieces (c :: rest) = _
      rw [scanPieces, if_neg hplain]
      · rfl
      · exact hquote
      · intro _ _ _ _ _ hc
        exact absurd hc hbackslash
      · intro _ _ hc
        exact absurd hc hbackslash
  all_goals
    change scanPieces ('\\' :: _ :: rest) = _
    rw [scanPieces]
    · rfl
    · intro _ _ _ _ _ hu
      exact absurd hu (by decide)

/-- A written string ends at its closing quote, and it is scanned as its characters. -/
theorem scanPieces_written (text rest : List Char) :
    scanPieces (text.flatMap writtenChar ++ '"' :: rest) = some (text.map .char, rest) := by
  induction text with
  | nil => rfl
  | cons c text ih =>
    rw [List.flatMap_cons, List.append_assoc, scanPieces_writtenChar, ih]
    rfl

theorem joinPieces_map_char (text : List Char) : joinPieces (text.map .char) = some text := by
  induction text with
  | nil => rfl
  | cons c text ih =>
    rw [List.map_cons, joinPieces, ih]
    rfl

/-! ## Integers -/

/-- A text that a number before it ends at. -/
def EndsNumber (rest : List Char) : Prop :=
  ∀ c ∈ rest.head?, isDigit c = false ∧ c ≠ '.' ∧ c ≠ 'e' ∧ c ≠ 'E'

theorem isDigit_of_mem_toDigits {n : Nat} {c : Char} (h : c ∈ Nat.toDigits 10 n) :
    isDigit c = true :=
  Nat.isDigit_of_mem_toDigits (by decide) (by decide) h

theorem digitsValue_toDigits (n : Nat) : digitsValue (Nat.toDigits 10 n) = n := by
  have hfold : digitsValue (Nat.toDigits 10 n) = Nat.ofDigitChars 10 (Nat.toDigits 10 n) 0 := by
    unfold digitsValue Nat.ofDigitChars
    simp only [Nat.mul_comm]
  rw [hfold, Nat.ofDigitChars_toDigits (by decide) (by decide)]

theorem exists_cons_toDigits (n : Nat) : ∃ c digits, Nat.toDigits 10 n = c :: digits :=
  List.exists_cons_of_ne_nil Nat.toDigits_ne_nil

/-- Only zero is written with a zero in front. -/
theorem head?_toDigits {n : Nat} (h : 0 < n) : (Nat.toDigits 10 n).head? ≠ some '0' := by
  induction n using Nat.strongRecOn with
  | ind n ih =>
    by_cases hlt : n < 10
    · have hdigit : ∀ digit < 10, 0 < digit → [Nat.digitChar digit].head? ≠ some '0' := by decide
      rw [Nat.toDigits_of_lt_base hlt]
      exact hdigit n hlt h
    · have hquotient := ih (n / 10) (by omega) (by omega)
      obtain ⟨c, digits, hdigits⟩ := exists_cons_toDigits (n / 10)
      rw [Nat.toDigits_of_base_le (by decide) (by omega), hdigits]
      rw [hdigits] at hquotient
      exact hquotient

theorem isWholePart_toDigits (n : Nat) : isWholePart (Nat.toDigits 10 n) = true := by
  by_cases hlt : n < 10
  · rw [Nat.toDigits_of_lt_base hlt]
    rfl
  · have hhead := head?_toDigits (n := n) (by omega)
    unfold isWholePart
    split
    · next hnil => exact absurd hnil Nat.toDigits_ne_nil
    · rfl
    · next c _ hcons =>
      rw [hcons] at hhead
      exact bne_iff_ne.mpr fun hc ↦ hhead (congrArg some hc)

section Scanning

variable {rest : List Char} (hrest : EndsNumber rest)
include hrest

theorem takeWhile_toDigits (n : Nat) :
    (Nat.toDigits 10 n ++ rest).takeWhile isDigit = Nat.toDigits 10 n := by
  rw [List.takeWhile_append_of_pos fun c hc ↦ isDigit_of_mem_toDigits hc]
  cases rest with
  | nil => exact List.append_nil _
  | cons c rest =>
    rw [List.takeWhile_cons_of_neg (by simp [(hrest c rfl).1]), List.append_nil]

theorem dropWhile_toDigits (n : Nat) :
    (Nat.toDigits 10 n ++ rest).dropWhile isDigit = rest := by
  rw [List.dropWhile_append_of_pos fun c hc ↦ isDigit_of_mem_toDigits hc]
  cases rest with
  | nil => rfl
  | cons c rest => exact List.dropWhile_cons_of_neg (by simp [(hrest c rfl).1])

theorem fractionLength?_of_ends : fractionLength? rest = some 0 := by
  unfold fractionLength?
  split
  · exact absurd rfl (hrest '.' rfl).2.1
  · rfl

theorem exponentLength?_of_ends : exponentLength? rest = some 0 := by
  unfold exponentLength?
  split
  · next mark rest =>
    obtain ⟨-, -, hlower, hupper⟩ := hrest mark rfl
    rw [if_neg (by simp [hlower, hupper])]
  · rfl

/-- The digits of a number are scanned as this number with its sign. -/
theorem scanUnsigned_toDigits (negative : Bool) (n : Nat) :
    scanUnsigned negative (Nat.toDigits 10 n ++ rest) =
      some (numberToken negative (Nat.toDigits 10 n) [], rest) := by
  unfold scanUnsigned
  simp only [takeWhile_toDigits hrest, dropWhile_toDigits hrest, isWholePart_toDigits,
    fractionLength?_of_ends hrest, List.drop_zero, exponentLength?_of_ends hrest, if_true,
    Option.bind_eq_bind, Option.bind_some, Nat.add_zero, List.take_zero]
  rfl

theorem scanNumber_writtenInteger (n : Int) :
    scanNumber (writtenInteger n ++ rest) = some (.integer n, rest) := by
  unfold writtenInteger
  by_cases hneg : n < 0
  · rw [if_pos hneg, List.cons_append]
    unfold scanNumber
    simp only [scanUnsigned_toDigits hrest, numberToken, digitsValue_toDigits]
    rw [if_pos ⟨rfl, by omega⟩, if_pos trivial]
    congr 3
    omega
  · rw [if_neg hneg]
    unfold scanNumber
    split
    · next tail hminus =>
      obtain ⟨c, digits, hdigits⟩ := exists_cons_toDigits n.natAbs
      have hdigit : isDigit c = true := isDigit_of_mem_toDigits (hdigits ▸ List.mem_cons_self)
      rw [hdigits] at hminus
      obtain ⟨rfl, -⟩ := List.cons.inj hminus
      exact absurd hdigit (by decide)
    · simp only [scanUnsigned_toDigits hrest, numberToken, digitsValue_toDigits]
      rw [if_pos ⟨rfl, by simp⟩, if_neg (by simp)]
      congr 3
      omega

end Scanning

/-! ## Tokens -/

/-- Before this text the token keeps all that its own text says. A number that is not an integer
does not, nor does a string without a text, and an integer has to end there. -/
def Token.ReadsBefore (rest : List Char) : Token → Prop
  | .decimal _ | .string none => False
  | .integer _ => EndsNumber rest
  | _ => True

namespace Token

variable {token : Token} {rest : List Char}

theorem exists_cons_writtenInteger (n : Int) :
    ∃ c tail, writtenInteger n = c :: tail ∧ (c = '-' ∨ isDigit c = true) := by
  unfold writtenInteger
  split
  · exact ⟨'-', _, rfl, .inl rfl⟩
  · obtain ⟨c, digits, hdigits⟩ := exists_cons_toDigits n.natAbs
    exact ⟨c, digits, hdigits, .inr (isDigit_of_mem_toDigits (hdigits ▸ List.mem_cons_self))⟩

theorem scanOne_integer (hrest : EndsNumber rest) (n : Int) :
    scanOne (writtenInteger n ++ rest) = some (.integer n, rest) := by
  have hscan := scanNumber_writtenInteger hrest n
  obtain ⟨c, tail, hwritten, hc⟩ := exists_cons_writtenInteger n
  rw [hwritten, List.cons_append] at hscan ⊢
  unfold scanOne
  split
  case h_11 => exact hscan
  all_goals
    next heq =>
    obtain ⟨rfl, -⟩ := List.cons.inj heq
    exact absurd hc (by decide)

theorem scanOne_string (text : String) :
    scanOne ('"' :: (text.toList.flatMap writtenChar ++ '"' :: rest)) =
      some (.string (some text), rest) := by
  have htext : String.ofList <$> joinPieces (text.toList.map .char) = some text := by
    rw [joinPieces_map_char, Option.map_eq_map, Option.map_some, String.ofList_toList]
  calc
    _ = (scanPieces (text.toList.flatMap writtenChar ++ '"' :: rest)).bind fun read ↦
        some (Token.string (String.ofList <$> joinPieces read.1), read.2) := rfl
    _ = some (.string (String.ofList <$> joinPieces (text.toList.map .char)), rest) := by
      rw [scanPieces_written, Option.bind_some]
    _ = some (.string (some text), rest) := by rw [htext]

/-- The written form of a token is scanned as this token. -/
theorem scanOne_written (h : token.ReadsBefore rest) :
    scanOne (token.written ++ rest) = some (token, rest) := by
  cases token with
  | integer n => exact scanOne_integer h n
  | decimal text => exact h.elim
  | bool value => cases value <;> rfl
  | string text =>
    cases text with
    | none => exact h.elim
    | some text =>
      have hwritten : (Token.string (some text)).written ++ rest =
          '"' :: (text.toList.flatMap writtenChar ++ '"' :: rest) := by
        change '"' :: (text.toList.flatMap writtenChar ++ ['"']) ++ rest = _
        rw [List.cons_append, List.append_assoc]
        rfl
      rw [hwritten, scanOne_string]
  | _ => rfl

/-- No token starts with a blank. -/
theorem exists_cons_written (h : token.ReadsBefore rest) :
    ∃ c tail, token.written = c :: tail ∧ isBlank c = false := by
  cases token with
  | integer n =>
    obtain ⟨c, tail, hwritten, hc⟩ := exists_cons_writtenInteger n
    refine ⟨c, tail, hwritten, ?_⟩
    rw [Bool.eq_false_iff]
    intro hblank
    simp only [isBlank, Bool.or_eq_true, decide_eq_true_eq] at hblank
    rcases hblank with ((rfl | rfl) | rfl) | rfl <;> exact absurd hc (by decide)
  | decimal text => exact h.elim
  | bool value => cases value <;> exact ⟨_, _, rfl, rfl⟩
  | string text =>
    cases text with
    | none => exact h.elim
    | some text => exact ⟨'"', _, rfl, rfl⟩
  | _ => exact ⟨_, _, rfl, rfl⟩

/-- Scanning goes on behind a written token. -/
theorem scan_written (h : token.ReadsBefore rest) :
    scan (token.written ++ rest) = (token :: ·) <$> scan rest := by
  have hscan := scanOne_written h
  obtain ⟨c, tail, hwritten, hblank⟩ := exists_cons_written h
  rw [hwritten, List.cons_append] at hscan ⊢
  rw [scan, if_neg (by simp [hblank])]
  split
  · next hnone =>
    rw [hscan] at hnone
    cases hnone
  · next hsome =>
    rw [hscan] at hsome
    obtain ⟨rfl, rfl⟩ := Prod.mk.inj (Option.some.inj hsome)
    rfl

end Token

/-! ## Values -/

mutual

/-- Every number in the value is an integer, and every string and every key has a text. -/
def IsExact : Json → Prop
  | .decimal _ | .string none => False
  | .array items => itemsAreExact items
  | .object fields => fieldsAreExact fields
  | _ => True

def itemsAreExact : List Json → Prop
  | [] => True
  | item :: rest => item.IsExact ∧ itemsAreExact rest

def fieldsAreExact : List (Option String × Json) → Prop
  | [] => True
  | (key, value) :: rest => key.isSome ∧ value.IsExact ∧ fieldsAreExact rest

end

/-! ### Scanning values -/

/-- The written tokens are scanned, and scanning goes on behind them. -/
def Scans (tokens : List Token) (rest : List Char) : Prop :=
  Token.scan (tokens.flatMap Token.written ++ rest) = (tokens ++ ·) <$> Token.scan rest

namespace Scans

variable {rest : List Char}

theorem nil : Scans [] rest := by
  unfold Scans
  rw [List.flatMap_nil, List.nil_append]
  exact (id_map _).symm

theorem append {first last : List Token}
    (hfirst : Scans first (last.flatMap Token.written ++ rest)) (hlast : Scans last rest) :
    Scans (first ++ last) rest := by
  unfold Scans at hfirst hlast ⊢
  rw [List.flatMap_append, List.append_assoc, hfirst, hlast, ← comp_map]
  simp only [Function.comp_def, List.append_assoc]

theorem cons {token : Token} {tokens : List Token}
    (htoken : token.ReadsBefore (tokens.flatMap Token.written ++ rest))
    (htokens : Scans tokens rest) : Scans (token :: tokens) rest := by
  unfold Scans at htokens ⊢
  rw [List.flatMap_cons, List.append_assoc, Token.scan_written htoken, htokens, ← comp_map]
  rfl

theorem single {token : Token} (htoken : token.ReadsBefore rest) : Scans [token] rest :=
  .cons htoken .nil

end Scans

theorem endsNumber_nil : EndsNumber [] := by
  intro c hc
  cases hc

theorem endsNumber_cons {c : Char} {rest : List Char}
    (h : isDigit c = false ∧ c ≠ '.' ∧ c ≠ 'e' ∧ c ≠ 'E') : EndsNumber (c :: rest) := by
  intro d hd
  obtain rfl := Option.some.inj hd
  exact h

mutual

theorem scans_tokens {value : Json} (h : value.IsExact) {rest : List Char}
    (hrest : EndsNumber rest) : Scans value.tokens rest := by
  cases value with
  | array items =>
    refine .cons trivial (.append ?_ (.single trivial))
    exact scans_items h (endsNumber_cons (by decide))
  | object fields =>
    refine .cons trivial (.append ?_ (.single trivial))
    exact scans_fields h (endsNumber_cons (by decide))
  | string text =>
    cases text with
    | none => exact h.elim
    | some text => exact .single trivial
  | integer n => exact .single hrest
  | decimal text => exact h.elim
  | _ => exact .single trivial

theorem scans_items {items : List Json} (h : itemsAreExact items) {rest : List Char}
    (hrest : EndsNumber rest) : Scans (commaSeparated (itemTokens items)) rest := by
  match items, h with
  | [], _ => exact .nil
  | [item], h => exact scans_tokens h.1 hrest
  | item :: next :: more, h =>
    refine .append (scans_tokens h.1 (endsNumber_cons (by decide))) (.cons trivial ?_)
    exact scans_items h.2 hrest

theorem scans_fields {fields : List (Option String × Json)} (h : fieldsAreExact fields)
    {rest : List Char} (hrest : EndsNumber rest) :
    Scans (commaSeparated (fieldTokens fields)) rest := by
  match fields, h with
  | [], _ => exact .nil
  | [(some key, value)], h =>
    exact .cons trivial (.cons trivial (scans_tokens h.2.1 hrest))
  | (some key, value) :: next :: more, h =>
    refine .cons trivial (.cons trivial ?_)
    refine .append (scans_tokens h.2.1 (endsNumber_cons (by decide))) (.cons trivial ?_)
    exact scans_fields h.2.2 hrest

end

/-! ### Reading tokens -/

/-- What reading the tokens comes to, from where the reader stands. -/
def readOn (progress : Progress) (tokens : List Token) : Option Progress :=
  tokens.foldlM Progress.advance progress

theorem readOn_cons (progress : Progress) (token : Token) (tokens : List Token) :
    readOn progress (token :: tokens) =
      (progress.advance token).bind fun next ↦ readOn next tokens :=
  List.foldlM_cons

/-- A value does not start with the end of an array. -/
theorem exists_cons_tokens (value : Json) :
    ∃ token rest, value.tokens = token :: rest ∧ token ≠ .closeArray := by
  cases value <;> exact ⟨_, _, rfl, by intro h; cases h⟩

/-- The first item of an array is read as any value. -/
theorem readOn_valueOrClose (value : Json) (frames : List Frame) (more : List Token) :
    readOn ⟨frames, .valueOrClose⟩ (value.tokens ++ more) =
      readOn ⟨frames, .value⟩ (value.tokens ++ more) := by
  obtain ⟨token, rest, htokens, hopen⟩ := exists_cons_tokens value
  rw [htokens, List.cons_append, readOn_cons, readOn_cons]
  cases token with
  | closeArray => exact absurd rfl hopen
  | _ => rfl

/-- The text of an array starts with its first item. -/
theorem exists_itemTokens (item : Json) (rest : List Json) :
    ∃ more, commaSeparated (itemTokens (item :: rest)) = item.tokens ++ more := by
  cases rest with
  | nil => exact ⟨[], (List.append_nil _).symm⟩
  | cons next rest => exact ⟨_, rfl⟩

mutual

/-- A value is complete behind its own tokens. -/
theorem readOn_tokens (value : Json) (frames : List Frame) (more : List Token) :
    readOn ⟨frames, .value⟩ (value.tokens ++ more) = readOn ⟨frames, .after value⟩ more := by
  match value with
  | .array items =>
    have hitems := fun h ↦ readOn_items items h [] frames more
    cases items with
    | nil => rfl
    | cons item rest =>
      obtain ⟨others, hothers⟩ := exists_itemTokens item rest
      calc
        _ = readOn ⟨.items [] :: frames, .valueOrClose⟩
              (commaSeparated (itemTokens (item :: rest)) ++ [.closeArray] ++ more) := rfl
        _ = readOn ⟨.items [] :: frames, .value⟩
              (commaSeparated (itemTokens (item :: rest)) ++ [.closeArray] ++ more) := by
          rw [hothers]
          simp only [List.append_assoc, readOn_valueOrClose]
        _ = readOn ⟨frames, .after (.array (item :: rest))⟩ more := by
          rw [List.append_assoc]
          exact hitems (List.cons_ne_nil item rest)
  | .object fields =>
    have hfields := fun h ↦ readOn_fields fields h [] frames more
    cases fields with
    | nil => rfl
    | cons field rest =>
      have hstart : readOn ⟨frames, .value⟩ ((Json.object (field :: rest)).tokens ++ more) =
          readOn ⟨frames, .key []⟩
            (commaSeparated (fieldTokens (field :: rest)) ++ [.closeObject] ++ more) := by
        cases rest <;> rfl
      rw [hstart, List.append_assoc]
      exact hfields (List.cons_ne_nil field rest)
  | .null | .bool _ | .integer _ | .decimal _ | .string _ => rfl

/-- The items of an array are read up to its end. -/
theorem readOn_items (items : List Json) (h : items ≠ []) (done : List Json) (frames : List Frame)
    (more : List Token) :
    readOn ⟨.items done :: frames, .value⟩
        (commaSeparated (itemTokens items) ++ .closeArray :: more) =
      readOn ⟨frames, .after (.array (done.reverse ++ items))⟩ more := by
  match items with
  | [] => exact absurd rfl h
  | [item] =>
    refine (readOn_tokens item _ _).trans ?_
    rw [← List.reverse_cons]
    rfl
  | item :: next :: rest =>
    have hnext := readOn_items (next :: rest) (List.cons_ne_nil next rest) (item :: done) frames
      more
    rw [List.reverse_cons, List.append_assoc, List.singleton_append] at hnext
    calc
      _ = readOn ⟨.items done :: frames, .value⟩ (item.tokens ++ .comma ::
            (commaSeparated (itemTokens (next :: rest)) ++ .closeArray :: more)) :=
        congrArg (readOn _) (List.append_assoc ..)
      _ = readOn ⟨.items (item :: done) :: frames, .value⟩
            (commaSeparated (itemTokens (next :: rest)) ++ .closeArray :: more) :=
        readOn_tokens item _ _
      _ = _ := hnext

/-- The fields of an object are read up to its end. -/
theorem readOn_fields (fields : List (Option String × Json)) (h : fields ≠ [])
    (done : List (Option String × Json)) (frames : List Frame) (more : List Token) :
    readOn ⟨frames, .key done⟩ (commaSeparated (fieldTokens fields) ++ .closeObject :: more) =
      readOn ⟨frames, .after (.object (done.reverse ++ fields))⟩ more := by
  match fields with
  | [] => exact absurd rfl h
  | [(key, value)] =>
    refine (readOn_tokens value (.fields done key :: frames) _).trans ?_
    rw [← List.reverse_cons]
    rfl
  | (key, value) :: next :: rest =>
    have hnext := readOn_fields (next :: rest) (List.cons_ne_nil next rest) ((key, value) :: done)
      frames more
    rw [List.reverse_cons, List.append_assoc, List.singleton_append] at hnext
    calc
      _ = readOn ⟨.fields done key :: frames, .value⟩ (value.tokens ++ .comma ::
            (commaSeparated (fieldTokens (next :: rest)) ++ .closeObject :: more)) :=
        congrArg (readOn ⟨.fields done key :: frames, .value⟩) (List.append_assoc ..)
      _ = readOn ⟨frames, .key ((key, value) :: done)⟩
            (commaSeparated (fieldTokens (next :: rest)) ++ .closeObject :: more) :=
        readOn_tokens value _ _
      _ = _ := hnext

end

theorem ofTokens?_tokens (value : Json) : ofTokens? value.tokens = some value := by
  have hread := readOn_tokens value [] []
  rw [List.append_nil] at hread
  unfold ofTokens?
  change (readOn ⟨[], .value⟩ value.tokens).bind Progress.result? = some value
  rw [hread]
  rfl

/-- An exact value is read back from its text. -/
theorem read?_written {value : Json} (h : value.IsExact) : read? value.written = some value := by
  have hscan := scans_tokens h endsNumber_nil
  unfold Scans at hscan
  rw [List.append_nil] at hscan
  unfold read? written
  rw [String.toList_ofList, hscan, Token.scan]
  change ofTokens? (value.tokens ++ []) = some value
  rw [List.append_nil, ofTokens?_tokens]

end TandemScript.Json
