import TandemScript.Proofs.Mirroring
import TandemScript.Proofs.Trusted

/-!
# Canonical words

The dictionary of a host may hold any integer, also one that has a word of its own. A machine never
names such an entry: the words in its code do not, and encoding a value gives the word of its own
to each integer that has one. For these canonical words the test for the word of zero is the test
of their values.
-/

namespace TandemScript

/-- If the word names an entry, then this is there, and it is no integer with a word of its own. -/
def Word.Canonical (dict : Dictionary) (word : Word) : Prop :=
  ∀ index, word.view = .entry index → ∃ value, dict.get? index = some value ∧
    ∀ n, value = .int n → Word.ofInt? n = none

namespace Word.Canonical

variable {dict dict' : Dictionary} {word : Word}

theorem mono (h : word.Canonical dict) (hgrows : dict.GrowsTo dict') : word.Canonical dict' := by
  intro index hview
  obtain ⟨value, hvalue, hint⟩ := h index hview
  exact ⟨value, hgrows.get? hvalue, hint⟩

theorem of_view (h : ∀ index, word.view ≠ .entry index) : word.Canonical dict :=
  fun index hview ↦ absurd hview (h index)

/-- The word of a number, which may be too great to be told apart. -/
theorem small (n : Nat) : (Word.small n).Canonical dict := by
  refine of_view fun index hview ↦ ?_
  have hodd : (Word.small n).bits.toNat % 2 = 1 := by
    unfold Word.small
    rw [UInt32.toNat_ofNat']
    omega
  unfold Word.view at hview
  simp only [hodd, if_true] at hview
  cases hview

theorem reference {index : Nat} (h : Word.reference? index = some word) : word.Canonical dict :=
  of_view (by simp [Word.view_of_reference? h])

theorem of_value {value : Value} (h : dict.value word = .ok value)
    (hint : ∀ n, value = .int n → Word.ofInt? n = none) : word.Canonical dict := by
  intro index hview
  obtain ⟨index', hview', hget⟩ := Dictionary.value_eq_ok.mp h
  obtain rfl := Word.View.entry.inj (hview.symm.trans hview')
  exact ⟨value, hget, hint⟩

theorem of_denotes {value : Value} (h : dict.Denotes word value) : word.Canonical dict := by
  cases h with
  | small hword =>
    refine of_view fun index hview ↦ ?_
    rw [(Word.view_of_ofInt? hword).1] at hview
    cases hview
  | entry hvalue hint => exact of_value hvalue hint

theorem undefined (h : dict.get? 0 = some .undefined) : Word.undefined.Canonical dict :=
  of_value (Dictionary.value_eq_ok.mpr ⟨0, rfl, h⟩) (by simp)

end Word.Canonical

/-! ## The truth of words -/

/-- The value of the word, if it has one, is false. -/
def Word.isFalseIn (dict : Dictionary) (heap : Heap) (records : Records) (word : Word) : Bool :=
  match decode dict heap word records with
  | .ok value _ => value.isFalse
  | .error _ _ => false

theorem Word.isFalseIn_iff {dict : Dictionary} {heap : Heap} {records : Records} {word : Word} :
    word.isFalseIn dict heap records = true ↔
      ∃ value copied, decode dict heap word records = .ok value copied ∧ value.isFalse = true := by
  unfold isFalseIn
  cases decode dict heap word records with
  | ok value copied => simp
  | error failure copied => simp

theorem Int32.ofNat_eq_zero_iff {n : Nat} (hn : n < 0x80000000) : Int32.ofNat n = 0 ↔ n = 0 := by
  constructor
  · intro h
    have hint := congrArg Int32.toInt h
    rw [Int32.toInt_ofNat_of_lt (by omega)] at hint
    simpa using hint
  · rintro rfl
    rfl

theorem Word.lt_of_view_small {word : Word} {n : Nat} (h : word.view = .small n) :
    n < 0x80000000 := by
  have hbits := word.bits.toNat_lt
  unfold Word.view at h
  simp only at h
  split at h
  · obtain rfl := Word.View.small.inj h
    omega
  · split at h <;> cases h

theorem Word.eq_zero_of_view {word : Word} (h : word.view = .small 0) : word = Word.zero := by
  have hbits := word.bits.toNat_lt
  unfold Word.view at h
  simp only at h
  split at h
  · have hhalf := Word.View.small.inj h
    have hone : word.bits = 1 := UInt32.toNat_inj.mp (by
      change word.bits.toNat = 1
      omega)
    cases word
    exact congrArg Word.mk hone
  · split at h <;> cases h

/-- The word is zero exactly if its value is false. -/
theorem Word.Canonical.eq_zero_iff {dict : Dictionary} {word : Word} (h : word.Canonical dict)
    (heap : Heap) (records : Records) :
    word = Word.zero ↔ word.isFalseIn dict heap records = true := by
  rw [Word.isFalseIn_iff]
  constructor
  · rintro rfl
    exact ⟨.int 0, records, rfl, rfl⟩
  · rintro ⟨value, copied, hdecode, hfalse⟩
    cases hview : word.view with
    | small n =>
      rw [decode_of_plain (by simp [hview]), plainValue_of_small hview] at hdecode
      obtain ⟨rfl, -⟩ := EStateM.Result.ok.inj hdecode
      have hzero := (Int32.ofNat_eq_zero_iff (Word.lt_of_view_small hview)).mp
        (of_decide_eq_true hfalse)
      exact Word.eq_zero_of_view (hzero ▸ hview)
    | reference index =>
      have hspec := decode_reference_spec dict heap hview records
      unfold Ensures at hspec
      rw [hdecode] at hspec
      obtain ⟨id, copies, rfl, -⟩ := hspec
      cases hfalse
    | entry index =>
      obtain ⟨found, hfound, hint⟩ := h index hview
      have hvalue := Dictionary.value_eq_ok.mpr ⟨index, hview, hfound⟩
      rw [decode_of_plain (by simp [hview]), plainValue_of_value hvalue] at hdecode
      obtain ⟨rfl, -⟩ := EStateM.Result.ok.inj hdecode
      cases found with
      | int n =>
        obtain rfl : n = 0 := of_decide_eq_true hfalse
        cases hint 0 rfl
      | _ => cases hfalse

theorem Word.Canonical.not_entry_of_zero {dict : Dictionary} {word : Word}
    (h : word.Canonical dict) {index : Nat} (hview : word.view = .entry index) :
    dict.get? index ≠ some (.int 0) := by
  intro hzero
  obtain ⟨value, hvalue, hint⟩ := h index hview
  obtain rfl := Option.some.inj (hzero.symm.trans hvalue)
  cases hint 0 rfl

/-! ## Values and words -/

/-- Whatever a value shares its entry with, only an integer shares one with an integer. -/
theorem Value.eq_int_of_sharesEntry {value : Value} {n : Int32}
    (h : value.sharesEntry (.int n) = true) : value = .int n := by
  cases value with
  | int a => exact congrArg Value.int (of_decide_eq_true h)
  | _ => cases h

theorem Dictionary.Interned.canonical {value found : Value} {dict dict' : Dictionary} {word : Word}
    (h : Interned value dict word dict' found) (hint : ∀ n, value = .int n → Word.ofInt? n = none) :
    word.Canonical dict' := by
  refine .of_value h.names ?_
  rintro n rfl
  exact hint n (Value.eq_int_of_sharesEntry h.shares)

/-- The word of a trusted value, and what it added to the dictionary. -/
structure Word.Encodes (lib : Library) (dict dict' : Dictionary) (word : Word) : Prop where
  grows : dict.GrowsTo dict'
  canonical : word.Canonical dict'
  entries : (∀ index value, dict.get? index = some value → value.IsTrusted lib) →
    ∀ index value, dict'.get? index = some value → value.IsTrusted lib

theorem intern_canonical {lib : Library} {value : Value} (hvalue : value.IsTrusted lib)
    (hint : ∀ n, value = .int n → Word.ofInt? n = none) (dict : Dictionary) :
    Ensures (Dictionary.intern value) dict (fun word dict' ↦ word.Encodes lib dict dict')
      fun _ _ ↦ True := by
  rcases Dictionary.intern_spec value dict with ⟨word, dict', found, hintern, h⟩ | ⟨hfull, -⟩
  · refine .of_ok hintern ⟨h.grows, h.canonical hint, fun hentries index other hother ↦ ?_⟩
    rcases h.added index other hother with hold | rfl
    · exact hentries index other hold
    · exact hvalue
  · exact .of_error hfull trivial

/-- Encoding gives canonical words. -/
theorem encode_canonical {lib : Library} {value : Value} (hvalue : value.IsTrusted lib)
    (records : Records) (heap : Heap) (dict : Dictionary) :
    Ensures (encode records heap value) dict (fun word dict' ↦ word.Encodes lib dict dict')
      fun _ _ ↦ True := by
  have hintern (hint : ∀ n, value = .int n → Word.ofInt? n = none) :=
    intern_canonical hvalue hint dict
  have hown {word : Word} (hword : ∀ index, word.view ≠ .entry index) :
      word.Encodes lib dict dict :=
    ⟨.refl dict, .of_view hword, fun h ↦ h⟩
  cases value with
  | int n =>
    unfold encode
    cases hword : Word.ofInt? n with
    | some word =>
      simp only [hword]
      exact .pure (hown (by simp [Word.view_of_ofInt? hword]))
    | none =>
      simp only [hword]
      exact hintern (by simp [hword])
  | record id =>
    unfold encode
    simp only
    split
    · split
      · split
        · next hword => exact .pure (hown (by simp [Word.view_of_reference? hword]))
        · exact .of_error rfl trivial
      · exact hintern (by simp)
    · exact hintern (by simp)
  | _ => exact hintern (by simp)

/-- The value of a word is trusted if all entries of the dictionary are, and so are the records that
were copied for it. -/
theorem decode_trusted {lib : Library} {dict : Dictionary}
    (hentries : ∀ index value, dict.get? index = some value → value.IsTrusted lib)
    (heap : Heap) (word : Word) {records : Records} (hrecords : records.AreTrusted lib) :
    Ensures (decode dict heap word) records
      (fun value copied ↦ value.IsTrusted lib ∧ copied.AreTrusted lib)
      fun _ _ ↦ True := by
  have hreads {word : Word} {value : Value} {copies : Nat → Option RecordId}
      (h : word.Reads dict copies value) : value.IsTrusted lib := by
    unfold Word.Reads at h
    split at h
    · exact h ▸ .int _
    · exact hentries _ _ h
    · obtain ⟨id, -, rfl⟩ := h
      exact .record id
  by_cases hplain : ∀ index, word.view ≠ .reference index
  · rw [decode_of_plain hplain]
    rcases plainValue_cases dict hplain with ⟨value, hvalue, hread⟩ | ⟨detail, index, herror, -⟩
    · exact .of_ok (ofExcept_of_ok hvalue records) ⟨hreads (hread fun _ ↦ none), hrecords⟩
    · rw [herror]
      exact .of_error rfl trivial
  · obtain ⟨index, hview⟩ := Classical.not_forall.mp hplain
    refine (decode_reference_spec dict heap (Classical.not_not.mp hview) records).mono ?_
      fun _ _ _ ↦ trivial
    rintro value copied ⟨id, copies, rfl, -, hcopied⟩
    refine ⟨.record id, fun record hrecord value hvalue ↦ ?_⟩
    obtain ⟨other, hother⟩ := Array.mem_iff_getElem?.mp hrecord
    by_cases hold : other < records.cells.size
    · have hkept := hcopied.kept other _ (Array.getElem?_eq_getElem hold)
      obtain rfl := Option.some.inj (hkept.symm.trans hother)
      exact hrecords _ (Array.getElem_mem hold) value hvalue
    · have hlt := (Array.getElem?_eq_some_iff.mp hother).1
      obtain ⟨start, hid⟩ := (hcopied.made other).mp ⟨Nat.le_of_not_lt hold, hlt⟩
      obtain ⟨o, -, -, found, hfound, hstands, hfilled⟩ := hcopied.filled start other hid
      obtain rfl := Option.some.inj (hfound.symm.trans hother)
      obtain ⟨offset, hoffset⟩ := Array.mem_iff_getElem?.mp hvalue
      have hinside := (Array.getElem?_eq_some_iff.mp hoffset).1
      obtain ⟨field, found', -, hfound', hread⟩ := hfilled offset (hstands.size ▸ hinside)
      obtain rfl := Option.some.inj (hfound'.symm.trans hoffset)
      exact hreads hread

end TandemScript
