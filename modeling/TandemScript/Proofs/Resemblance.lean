import TandemScript.Builtin

/-!
# Values that look alike

Two values with the same text and the same type, which are the same value if they are numbers or
strings. Built-in functions and messages find no other difference between two values, except that
equality asks whether two values are the same one.
-/

namespace TandemScript

/-- A value that is the same everywhere. -/
def Value.IsBasic : Value → Prop
  | .function _ | .shape .. | .record _ => False
  | _ => True

theorem Value.function_not_basic (f : Function) : ¬ (function f).IsBasic :=
  not_false

theorem Value.record_not_basic (id : RecordId) : ¬ (record id).IsBasic :=
  not_false

theorem Value.IsBasic.same_eq {value : Value} (h : value.IsBasic) (records records' : Records)
    (other : Value) : value.same records other = value.same records' other := by
  cases value with
  | function _ | shape _ _ | record _ => exact h.elim
  | _ => cases other <;> rfl

/-- A value of one kind is not the same as one of the other kind, on either side. -/
theorem Value.IsBasic.same_eq_false {value other : Value} (h : value.IsBasic)
    (hother : ¬ other.IsBasic) (records : Records) :
    value.same records other = false ∧ other.same records value = false := by
  cases value with
  | function _ | shape _ _ | record _ => exact h.elim
  | _ =>
    cases other with
    | function _ | shape _ _ | record _ => exact ⟨rfl, rfl⟩
    | _ => exact absurd trivial hother

/-- The text of a value, given the texts of objects. -/
def Value.textWith (object : RecordId → String) : Value → String
  | undefined => "undefined"
  | int n => toString n.toInt
  | str s => s
  | function f => "function " ++ f.name
  | shape _ layout => layout.text
  | record id => object id
  | global => "global"

theorem Value.IsBasic.textWith_eq {value : Value} (h : value.IsBasic)
    (object object' : RecordId → String) : value.textWith object = value.textWith object' := by
  cases value with
  | function _ | shape _ _ | record _ => exact h.elim
  | _ => rfl

theorem Value.text_eq (records : Records) (value : Value) :
    value.text records = value.textWith (records.objectText textDepth) := by
  cases value with
  | _ => unfold text textWith; rfl

theorem Records.objectText_succ (records : Records) (depth : Nat) (id : RecordId) :
    records.objectText (depth + 1) id = "\x7b" ++ ", ".intercalate
      ((((records.get? id).map Record.entries).getD []).map fun entry ↦
        entry.1 ++ ": " ++ entry.2.textWith (records.objectText depth)) ++ "\x7d" := by
  rw [objectText]
  rfl

theorem List.map_zip_congr {α β γ : Type} {f g : α × β → γ} {names : List α}
    {l l' : List β} (hlength : l.length = l'.length)
    (h : ∀ name (index : Nat) b b', l[index]? = some b → l'[index]? = some b' →
      f (name, b) = g (name, b')) : (names.zip l).map f = (names.zip l').map g := by
  induction names generalizing l l' with
  | nil => rfl
  | cons name rest ih =>
    cases l with
    | nil => rw [List.length_eq_zero_iff.mp hlength.symm]; rfl
    | cons b others =>
      cases l' with
      | nil => cases hlength
      | cons b' others' =>
        have hrest := ih (Nat.succ.inj hlength) fun name index c c' hc hc' ↦
          h name (index + 1) c c' hc hc'
        rw [List.zip_cons_cons, List.zip_cons_cons, List.map_cons, List.map_cons, hrest,
          h name 0 b b' rfl rfl]

/-- Built-in functions and messages find no difference between two values. -/
structure Value.Resembles (records : Records) (found : Value) (records' : Records)
    (value : Value) : Prop where
  text : found.text records = value.text records'
  typeText : found.typeText = value.typeText
  int : ∀ n, found = .int n ↔ value = .int n
  str : ∀ s, found = .str s ↔ value = .str s

theorem Failure.notA_of_not_str {value : Value} (h : ∀ s, value ≠ .str s) (expected : String)
    (records : Records) :
    notA expected records value =
      ⟨.typeMismatch expected (value.text records ++ " (" ++ value.typeText ++ ")"), {}⟩ := by
  cases value with
  | str s => exact absurd rfl (h s)
  | _ => rfl

namespace Value.Resembles

variable {records records' : Records} {found value other otherValue : Value}

theorem notA_eq (h : found.Resembles records records' value) (expected : String) :
    Failure.notA expected records found = Failure.notA expected records' value := by
  by_cases hstr : ∃ s, found = .str s
  · obtain ⟨s, rfl⟩ := hstr
    obtain rfl := (h.str s).mp rfl
    rfl
  · have hfound (s : String) : found ≠ .str s := fun hs ↦ hstr ⟨s, hs⟩
    have hvalue (s : String) : value ≠ .str s := fun hs ↦ hstr ⟨s, (h.str s).mpr hs⟩
    rw [Failure.notA_of_not_str hfound, Failure.notA_of_not_str hvalue, h.text, h.typeText]

theorem basic {value : Value} (h : value.IsBasic) : value.Resembles records records' value where
  text := by
    rw [text_eq, text_eq]
    exact h.textWith_eq _ _
  typeText := rfl
  int _ := Iff.rfl
  str _ := Iff.rfl

theorem record {copy id : RecordId}
    (h : records.objectText textDepth copy = records'.objectText textDepth id) :
    (Value.record copy).Resembles records records' (.record id) where
  text := h
  typeText := rfl
  int _ := by simp
  str _ := by simp

theorem function {g f : Function} (h : g.name = f.name) :
    (Value.function g).Resembles records records' (.function f) where
  text := congrArg ("function " ++ ·) h
  typeText := rfl
  int _ := by simp
  str _ := by simp

end Value.Resembles

namespace Builtin

variable {records records' : Records} {a b a' b' : Value}

theorem bothIntegers_of_not_int_left (h : ∀ n, a ≠ .int n) (records : Records) (b : Value) :
    bothIntegers records a b = .error (.notA "integer" records a) := by
  cases a with
  | int n => exact absurd rfl (h n)
  | _ => rfl

theorem bothIntegers_of_not_int_right (n : Int32) (h : ∀ n, b ≠ .int n) (records : Records) :
    bothIntegers records (.int n) b = .error (.notA "integer" records b) := by
  cases b with
  | int n => exact absurd rfl (h n)
  | _ => rfl

theorem bothIntegers_eq (ha : a.Resembles records records' a')
    (hb : b.Resembles records records' b') :
    bothIntegers records a b = bothIntegers records' a' b' := by
  by_cases hint : ∃ n, a = .int n
  · obtain ⟨n, rfl⟩ := hint
    obtain rfl := (ha.int n).mp rfl
    by_cases hint' : ∃ n, b = .int n
    · obtain ⟨n', rfl⟩ := hint'
      obtain rfl := (hb.int n').mp rfl
      rfl
    · have hb' (n : Int32) : b' ≠ .int n := fun h ↦ hint' ⟨n, (hb.int n).mpr h⟩
      rw [bothIntegers_of_not_int_right n (not_exists.mp hint'), hb.notA_eq,
        bothIntegers_of_not_int_right n hb']
  · have ha' (n : Int32) : a' ≠ .int n := fun h ↦ hint ⟨n, (ha.int n).mpr h⟩
    rw [bothIntegers_of_not_int_left (not_exists.mp hint), ha.notA_eq,
      bothIntegers_of_not_int_left ha']

theorem order_int_of_not_int (n : Int32) (h : ∀ n, b ≠ .int n) (records : Records) :
    order records (.int n) b = .error (.notA "integer" records b) := by
  cases b with
  | int n => exact absurd rfl (h n)
  | _ => rfl

theorem order_str_of_not_str (s : String) (h : ∀ s, b ≠ .str s) (records : Records) :
    order records (.str s) b = .error (.notA "string" records b) := by
  cases b with
  | str s => exact absurd rfl (h s)
  | _ => rfl

theorem order_of_not_ordered (hint : ∀ n, a ≠ .int n) (hstr : ∀ s, a ≠ .str s) (records : Records)
    (b : Value) : order records a b = .error (.notA "integer or string" records a) := by
  cases a with
  | int n => exact absurd rfl (hint n)
  | str s => exact absurd rfl (hstr s)
  | _ => rfl

theorem order_eq (ha : a.Resembles records records' a') (hb : b.Resembles records records' b') :
    order records a b = order records' a' b' := by
  by_cases hint : ∃ n, a = .int n
  · obtain ⟨n, rfl⟩ := hint
    obtain rfl := (ha.int n).mp rfl
    by_cases hint' : ∃ n, b = .int n
    · obtain ⟨n', rfl⟩ := hint'
      obtain rfl := (hb.int n').mp rfl
      rfl
    · have hb' (n : Int32) : b' ≠ .int n := fun h ↦ hint' ⟨n, (hb.int n).mpr h⟩
      rw [order_int_of_not_int n (not_exists.mp hint'), hb.notA_eq, order_int_of_not_int n hb']
  · have ha' (n : Int32) : a' ≠ .int n := fun h ↦ hint ⟨n, (ha.int n).mpr h⟩
    by_cases hstr : ∃ s, a = .str s
    · obtain ⟨s, rfl⟩ := hstr
      obtain rfl := (ha.str s).mp rfl
      by_cases hstr' : ∃ s, b = .str s
      · obtain ⟨s', rfl⟩ := hstr'
        obtain rfl := (hb.str s').mp rfl
        rfl
      · have hb' (s : String) : b' ≠ .str s := fun h ↦ hstr' ⟨s, (hb.str s).mpr h⟩
        rw [order_str_of_not_str s (not_exists.mp hstr'), hb.notA_eq, order_str_of_not_str s hb']
    · have hs' (s : String) : a' ≠ .str s := fun h ↦ hstr ⟨s, (ha.str s).mpr h⟩
      rw [order_of_not_ordered (not_exists.mp hint) (not_exists.mp hstr), ha.notA_eq,
        order_of_not_ordered ha' hs']

theorem applyBinary_eq (op : Builtin) (ha : a.Resembles records records' a')
    (hb : b.Resembles records records' b')
    (hsame : op = .eq ∨ op = .ne → a.same records b = a'.same records' b') :
    applyBinary records op a b = applyBinary records' op a' b' := by
  unfold applyBinary
  rw [bothIntegers_eq ha hb, order_eq ha hb]
  cases op with
  | eq => rw [hsame (.inl rfl)]
  | ne => rw [hsame (.inr rfl)]
  | _ => rfl

theorem exists_of_length_two {α : Type} {l : List α} (h : l.length = 2) : ∃ a b, l = [a, b] := by
  rcases l with _ | ⟨a, _ | ⟨b, _ | ⟨c, rest⟩⟩⟩ <;> first | exact ⟨_, _, rfl⟩ | cases h

theorem call_of_two {op : Builtin} (h : op ≠ .print) (records : Records) (a b : Value) :
    op.call records [a, b] = (applyBinary records op a b, "") := by
  unfold call
  split
  · exact absurd rfl h
  · rfl

theorem call_print (records : Records) (args : List Value) :
    print.call records args = (.ok .undefined, printedLine records args) := by
  unfold call
  rfl

theorem call_of_length_ne {op : Builtin} (h : op ≠ .print) {args : List Value}
    (hargs : args.length ≠ 2) (records : Records) :
    op.call records args = (.error ⟨.arityMismatch op.name 2 args.length, {}⟩, "") := by
  unfold call
  split
  · exact absurd rfl h
  · split
    · exact absurd rfl hargs
    · rfl

/-- A call of a built-in function comes to the same on both sides. -/
theorem call_eq (op : Builtin) {founds values : List Value}
    (hlength : founds.length = values.length)
    (heach : ∀ (index : Nat) found value, founds[index]? = some found →
      values[index]? = some value → found.Resembles records records' value)
    (hsame : op = .eq ∨ op = .ne → ∀ a b a' b', founds = [a, b] → values = [a', b'] →
      a.same records b = a'.same records' b') :
    op.call records founds = op.call records' values := by
  by_cases hprint : op = .print
  · subst hprint
    have htexts : founds.map (Value.text records) = values.map (Value.text records') := by
      refine List.ext_getElem? fun index ↦ ?_
      rw [List.getElem?_map, List.getElem?_map]
      cases hfound : founds[index]? with
      | none =>
        have hvalue : values[index]? = none := by
          rw [List.getElem?_eq_none_iff] at hfound ⊢
          omega
        rw [hvalue, Option.map_none, Option.map_none]
      | some found =>
        have hlt := (List.getElem?_eq_some_iff.mp hfound).1
        have hvalue : values[index]? = some values[index] := List.getElem?_eq_getElem (by omega)
        rw [hvalue, Option.map_some, Option.map_some, (heach index _ _ hfound hvalue).text]
    have hline : printedLine records founds = printedLine records' values := by
      unfold printedLine
      rw [htexts]
    rw [call_print, call_print, hline]
  · by_cases htwo : founds.length = 2
    · obtain ⟨a, b, rfl⟩ := exists_of_length_two htwo
      obtain ⟨a', b', rfl⟩ := exists_of_length_two (hlength.symm.trans htwo)
      rw [call_of_two hprint, call_of_two hprint, applyBinary_eq op (heach 0 a a' rfl rfl)
        (heach 1 b b' rfl rfl) fun hop ↦ hsame hop a b a' b' rfl rfl]
    · have htwo' : values.length ≠ 2 := hlength ▸ htwo
      rw [call_of_length_ne hprint htwo, call_of_length_ne hprint htwo', hlength]

end Builtin

end TandemScript
