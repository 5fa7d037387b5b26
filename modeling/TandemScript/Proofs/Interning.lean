import TandemScript.Dictionary

/-!
# Interning

Entries of a dictionary are never changed or moved, so that a word that names an entry goes on
naming it as the dictionary grows. Interning a value gives the word of an entry that is shared with
the value, and fails only where the dictionary is full.
-/

namespace TandemScript

namespace Value

theorem sharesEntry_self (value : Value) : value.sharesEntry value = true := by
  cases value <;> simp [sharesEntry]

/-- A value that is neither a function nor a shape only shares its entry with itself. -/
theorem eq_of_sharesEntry {value found : Value} (h : value.sharesEntry found = true)
    (hfunction : ∀ f, value ≠ .function f) (hshape : ∀ id shape, value ≠ .shape id shape) :
    found = value := by
  cases value with
  | function f => exact absurd rfl (hfunction f)
  | shape id shape => exact absurd rfl (hshape id shape)
  | _ => cases found <;> simp_all [sharesEntry]

theorem function_of_sharesEntry {f : Function} {found : Value}
    (h : (Value.function f).sharesEntry found = true) : ∃ g, found = .function g ∧ f.id = g.id := by
  cases found <;> simp_all [sharesEntry]

theorem shape_of_sharesEntry {id : Nat} {shape : Shape} {found : Value}
    (h : (Value.shape id shape).sharesEntry found = true) : ∃ other, found = .shape id other := by
  cases found <;> simp_all [sharesEntry]

end Value

theorem Word.asEntry?_eq_some {word : Word} {index : Nat} :
    word.asEntry? = some index ↔ word.view = .entry index := by
  unfold asEntry?
  cases word.view <;> simp

theorem Word.le_of_entry?_eq_none {index : Nat} (h : Word.entry? index = none) :
    indexBound ≤ index := by
  unfold entry? at h
  split at h
  · simp at h
  · omega

theorem Word.lt_of_reference? {index : Nat} {word : Word}
    (h : Word.reference? index = some word) : index < indexBound := by
  unfold reference? at h
  split at h
  · assumption
  · simp at h

namespace Dictionary

/-- The second dictionary has all entries of the first one in their places. -/
def GrowsTo (dict dict' : Dictionary) : Prop :=
  ∃ more, dict'.entries = dict.entries ++ more

namespace GrowsTo

variable {dict dict' dict'' : Dictionary} {word : Word}

theorem refl (dict : Dictionary) : dict.GrowsTo dict :=
  ⟨#[], by simp⟩

theorem trans (h : dict.GrowsTo dict') (h' : dict'.GrowsTo dict'') : dict.GrowsTo dict'' := by
  obtain ⟨more, h⟩ := h
  obtain ⟨more', h'⟩ := h'
  exact ⟨more ++ more', by rw [h', h, Array.append_assoc]⟩

theorem push (dict : Dictionary) (value : Value) : dict.GrowsTo ⟨dict.entries.push value⟩ :=
  ⟨#[value], by simp⟩

theorem get? (h : dict.GrowsTo dict') {index : Nat} {value : Value}
    (hvalue : dict.get? index = some value) : dict'.get? index = some value := by
  obtain ⟨more, h⟩ := h
  unfold Dictionary.get? at hvalue ⊢
  rw [h, Array.getElem?_append_left (Array.getElem?_eq_some_iff.mp hvalue).1]
  exact hvalue

theorem size_le (h : dict.GrowsTo dict') : dict.size ≤ dict'.size := by
  obtain ⟨more, h⟩ := h
  unfold size
  rw [h, Array.size_append]
  omega

end GrowsTo

variable {dict dict' : Dictionary} {word : Word}

theorem value_eq_ok {value : Value} :
    dict.value word = .ok value ↔
      ∃ index, word.view = .entry index ∧ dict.get? index = some value := by
  unfold Dictionary.value
  constructor
  · intro h
    split at h
    · simp at h
    · next index hindex =>
      split at h
      · simp at h
      · next found hfound =>
        obtain rfl := Except.ok.inj h
        exact ⟨index, Word.asEntry?_eq_some.mp hindex, hfound⟩
  · rintro ⟨index, hindex, hvalue⟩
    rw [Word.asEntry?_eq_some.mpr hindex]
    simp only [hvalue]

theorem GrowsTo.value (h : dict.GrowsTo dict') {value : Value}
    (hvalue : dict.value word = .ok value) : dict'.value word = .ok value := by
  obtain ⟨index, hview, hget⟩ := value_eq_ok.mp hvalue
  exact value_eq_ok.mpr ⟨index, hview, h.get? hget⟩

theorem string_of_value {s : String} (h : dict.value word = .ok (.str s)) :
    dict.string word = .ok s := by
  simp only [string, h, bind, Except.bind]
  rfl

theorem shape_of_value {id : Nat} {shape : Shape} (h : dict.value word = .ok (.shape id shape)) :
    dict.shape word = .ok shape := by
  simp only [Dictionary.shape, h, bind, Except.bind]
  rfl

theorem value_of_shape {shape : Shape} (h : dict.shape word = .ok shape) :
    ∃ id, dict.value word = .ok (.shape id shape) := by
  unfold Dictionary.shape at h
  cases hvalue : dict.value word with
  | error failure => simp [hvalue, bind, Except.bind] at h
  | ok value =>
    cases value with
    | shape id found =>
      simp only [hvalue, bind, Except.bind] at h
      obtain rfl := Except.ok.inj h
      exact ⟨id, rfl⟩
    | _ => simp [hvalue, bind, Except.bind, throw, throwThe, MonadExceptOf.throw] at h

theorem function_of_value {f : Function} (h : dict.value word = .ok (.function f)) :
    dict.function word = .ok f := by
  simp only [function, h, bind, Except.bind]
  rfl

theorem GrowsTo.shape (h : dict.GrowsTo dict') {shape : Shape}
    (hshape : dict.shape word = .ok shape) : dict'.shape word = .ok shape := by
  obtain ⟨id, hvalue⟩ := value_of_shape hshape
  exact shape_of_value (h.value hvalue)

/-! ## Adding values -/

theorem indexOf?_eq_some {value : Value} {index : Nat} (h : dict.indexOf? value = some index) :
    ∃ found, dict.get? index = some found ∧ value.sharesEntry found = true := by
  obtain ⟨hlt, hshares, -⟩ := Array.findIdx?_eq_some_iff_getElem.mp h
  exact ⟨dict.entries[index], Array.getElem?_eq_getElem hlt, hshares⟩

/-- The dictionary after a value was interned, and the entry whose word it got. -/
structure Interned (value : Value) (dict : Dictionary) (word : Word) (dict' : Dictionary)
    (found : Value) : Prop where
  grows : dict.GrowsTo dict'
  names : dict'.value word = .ok found
  shares : value.sharesEntry found = true
  /-- The value is the only one that may have been added. -/
  added : ∀ index other, dict'.get? index = some other →
    dict.get? index = some other ∨ other = value
  /-- The entry was there before, or it is the value itself. -/
  origin : (∃ index, dict.get? index = some found) ∨ found = value

/-- Interning a value fails only where the dictionary is full, and then it changes nothing. -/
theorem intern_spec (value : Value) (dict : Dictionary) :
    (∃ word dict' found, intern value dict = .ok word dict' ∧
      Interned value dict word dict' found) ∨
    intern value dict = .error (.inconsistent .dictionaryFull) dict ∧ indexBound ≤ dict.size := by
  unfold intern
  split
  · next index hindex =>
    obtain ⟨found, hfound, hshares⟩ := indexOf?_eq_some hindex
    split
    · next word hword =>
      left
      exact ⟨word, dict, found, rfl, .refl dict,
        value_eq_ok.mpr ⟨index, Word.view_of_entry? hword, hfound⟩, hshares,
        fun _ _ h ↦ .inl h, .inl ⟨index, hfound⟩⟩
    · next hword =>
      right
      have hbound := Word.le_of_entry?_eq_none hword
      have hlt := (Array.getElem?_eq_some_iff.mp hfound).1
      exact ⟨rfl, Nat.le_trans hbound (Nat.le_of_lt hlt)⟩
  · split
    · next word hword =>
      left
      have hlast : (⟨dict.entries.push value⟩ : Dictionary).get? dict.size = some value := by
        simp [get?, size]
      refine ⟨word, _, value, rfl, .push dict value,
        value_eq_ok.mpr ⟨_, Word.view_of_entry? hword, hlast⟩, value.sharesEntry_self, ?_,
        .inr rfl⟩
      intro index other hother
      simp only [get?, Array.getElem?_push] at hother
      split at hother
      · exact .inr (Option.some.inj hother).symm
      · exact .inl hother
    · next hword =>
      right
      exact ⟨rfl, Word.le_of_entry?_eq_none hword⟩

end Dictionary

end TandemScript
