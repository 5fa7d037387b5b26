import TandemScript.Proofs.Copying
import TandemScript.Proofs.Interning
import TandemScript.Proofs.Lockstep

/-!
# Round trips through words

A dictionary that values were only registered in has no entry twice. A value therefore has one word
at most: encoding it and decoding the word gives the same value again, and decoding a word and
encoding the value gives the word again. Only integers and records of the heap that have an entry,
too, go back to the word of their own. None of this asks the heap to be well-formed.
-/

namespace TandemScript

/-! ## Words from what they say -/

namespace Word

variable {word : Word} {index : Nat}

theorem eq_of_bits {w : Word} (h : word.bits.toNat = w.bits.toNat) : word = w := by
  cases word
  cases w
  congr 1
  exact UInt32.toNat_inj.mp h

theorem small_of_view {n : Nat} (h : word.view = .small n) :
    small n = word ∧ n < 0x80000000 := by
  have hlt := word.bits.toNat_lt
  simp only [view] at h
  split at h
  · obtain rfl := View.small.inj h
    refine ⟨eq_of_bits ?_, by omega⟩
    simp only [small]
    rw [UInt32.toNat_ofNat']
    omega
  · split at h <;> simp at h

theorem entry?_of_view (h : word.view = .entry index) : entry? index = some word := by
  have hlt := word.bits.toNat_lt
  simp only [view] at h
  split at h
  · simp at h
  · split at h
    · obtain rfl := View.entry.inj h
      unfold entry? indexBound
      rw [if_pos (by omega)]
      congr 1
      apply eq_of_bits
      simp only
      rw [UInt32.toNat_ofNat']
      omega
    · simp at h

theorem reference?_of_view (h : word.view = .reference index) :
    reference? index = some word := by
  have hlt := word.bits.toNat_lt
  simp only [view] at h
  split at h
  · simp at h
  · split at h
    · simp at h
    · obtain rfl := View.reference.inj h
      unfold reference? indexBound
      rw [if_pos (by omega)]
      congr 1
      apply eq_of_bits
      simp only
      rw [UInt32.toNat_ofNat']
      omega

theorem ofInt?_of_nonneg {n : Int32} (h : ¬ n < 0) : ofInt? n = some (small n.toInt.toNat) := by
  unfold ofInt?
  rw [if_neg h]

/-- The integer of a small word is not negative, and it has the word for its own. -/
theorem ofInt?_ofNat {n : Nat} (hn : n < 0x80000000) : ofInt? (.ofNat n) = some (small n) := by
  have hint : (Int32.ofNat n).toInt = n := Int32.toInt_ofNat_of_lt hn
  have hnonneg : ¬ Int32.ofNat n < 0 := by
    rw [Int32.lt_iff_toInt_lt, hint]
    simp
  rw [ofInt?_of_nonneg hnonneg, hint, Int.toNat_natCast]

end Word

/-! ## Registering values -/

namespace Dictionary

/-- Values were registered, and nothing else happened to the dictionary. -/
inductive Registered : Dictionary → Prop where
  | new : Registered new
  | intern {dict dict' : Dictionary} {value : Value} {word : Word} (h : Registered dict)
    (hword : intern value dict = .ok word dict') : Registered dict'

/-- No entry would have been added for the value of a later one. -/
def IsDistinct (dict : Dictionary) : Prop :=
  ∀ i j a b, i < j → dict.get? i = some a → dict.get? j = some b → ¬ b.sharesEntry a = true

variable {dict dict' : Dictionary} {value : Value} {word : Word}

theorem indexOf?_eq_none (h : dict.indexOf? value = none) {index : Nat} {found : Value}
    (hfound : dict.get? index = some found) : ¬ value.sharesEntry found = true := by
  have hnone := Array.findIdx?_eq_none_iff.mp h
  have hmem := hnone found (Array.mem_of_getElem? hfound)
  simp [hmem]

theorem IsDistinct.push (h : dict.IsDistinct) (hnone : dict.indexOf? value = none) :
    IsDistinct ⟨dict.entries.push value⟩ := by
  intro i j a b hij ha hb
  have hi : i < dict.entries.size := by
    have hj := (Array.getElem?_eq_some_iff.mp hb).1
    rw [Array.size_push] at hj
    omega
  have ha' : dict.get? i = some a := by
    simp only [get?, Array.getElem?_push_lt hi] at ha
    simp only [get?, Array.getElem?_eq_getElem hi]
    exact ha
  simp only [get?, Array.getElem?_push] at hb
  split at hb
  · obtain rfl := Option.some.inj hb
    exact indexOf?_eq_none hnone ha'
  · exact h i j a b hij ha' hb

theorem IsDistinct.intern (h : dict.IsDistinct) (hword : intern value dict = .ok word dict') :
    dict'.IsDistinct := by
  unfold Dictionary.intern at hword
  split at hword
  · split at hword
    · obtain ⟨-, rfl⟩ := EStateM.Result.ok.inj hword
      exact h
    · simp at hword
  · next hnone =>
    split at hword
    · obtain ⟨-, rfl⟩ := EStateM.Result.ok.inj hword
      exact h.push hnone
    · simp at hword

theorem Registered.isDistinct (h : dict.Registered) : dict.IsDistinct := by
  induction h with
  | new =>
    intro i j a b hij ha hb
    have hj : j < 1 := (Array.getElem?_eq_some_iff.mp hb).1
    omega
  | intern _ hword ih => exact ih.intern hword

/-- A value that has an entry finds this entry. -/
theorem IsDistinct.indexOf? (h : dict.IsDistinct) {index : Nat}
    (hvalue : dict.get? index = some value) : dict.indexOf? value = some index := by
  have hlt := (Array.getElem?_eq_some_iff.mp hvalue).1
  have heq : dict.entries[index] = value := (Array.getElem?_eq_some_iff.mp hvalue).2
  refine Array.findIdx?_eq_some_iff_getElem.mpr ⟨hlt, ?_, ?_⟩
  · rw [heq]
    exact value.sharesEntry_self
  · intro j hj
    exact h j index _ value hj (Array.getElem?_eq_getElem (Nat.lt_trans hj hlt)) hvalue

/-- Interning the value of an entry gives the word of the entry. -/
theorem IsDistinct.intern_value (h : dict.IsDistinct) (hvalue : dict.value word = .ok value) :
    Dictionary.intern value dict = .ok word dict := by
  obtain ⟨index, hview, hget⟩ := value_eq_ok.mp hvalue
  unfold Dictionary.intern
  rw [h.indexOf? hget]
  simp only [Word.entry?_of_view hview]

theorem intern_of_new (hnone : dict.indexOf? value = none)
    (hword : Word.entry? dict.size = some word) :
    Dictionary.intern value dict = .ok word ⟨dict.entries.push value⟩ := by
  unfold Dictionary.intern
  rw [hnone]
  simp only [hword]

/-- A dictionary that is not full has a word for every value. -/
theorem intern_of_lt (value : Value) (hroom : dict.size < indexBound) :
    ∃ word dict' found, Dictionary.intern value dict = .ok word dict' ∧
      Interned value dict word dict' found := by
  rcases intern_spec value dict with h | ⟨-, hfull⟩
  · exact h
  · omega

end Dictionary

/-! ## Decoding while the dictionary grows -/

section Grown

variable {dict dict' : Dictionary} {heap : Heap}

/-- Whatever the first computation gives, the second one gives. -/
abbrev Preserved {ε σ α : Type} (x y : EStateM ε σ α) : Prop :=
  Lockstep (fun _ ↦ True) Eq x y

theorem Preserved.ofExcept {ε σ α : Type} {x y : Except ε α} (h : ∀ a, x = .ok a → y = .ok a) :
    Preserved (MonadExcept.ofExcept x : EStateM ε σ α) (MonadExcept.ofExcept y) := by
  rintro s _ rfl
  cases hx : x with
  | ok a =>
    rw [h a hx]
    exact Follows.of_ok rfl
  | error e => exact Follows.of_waived trivial

/-- A preserved computation gives what it gave. -/
theorem Preserved.ok {ε σ α : Type} {x y : EStateM ε σ α} (h : Preserved x y) {s t : σ} {a : α}
    (hx : x s = .ok a t) : y s = .ok a t := by
  have hfollows := h s s rfl
  rw [hx] at hfollows
  obtain ⟨_, hy, rfl⟩ := hfollows
  exact hy

theorem plainValue_preserved (hgrows : dict.GrowsTo dict') (word : Word) (value : Value)
    (h : plainValue dict word = .ok value) : plainValue dict' word = .ok value := by
  unfold plainValue at h ⊢
  split at h
  · exact h
  · exact hgrows.value h

theorem copyOf_preserved (hgrows : dict.GrowsTo dict') (index : Nat) :
    Preserved (copyOf dict heap index) (copyOf dict' heap index) := by
  refine Lockstep.bind (.refl _) fun st ↦ ?_
  split
  · exact .refl _
  · refine Lockstep.bind (Preserved.ofExcept fun shape hshape ↦ ?_) fun shape ↦ .refl _
    cases hword : heap.shapeWord index with
    | error failure => simp [hword, bind, Except.bind] at hshape
    | ok word =>
      rw [hword] at hshape
      exact hgrows.shape hshape

theorem copyWord_preserved (hgrows : dict.GrowsTo dict') (word : Word) :
    Preserved (copyWord dict heap word) (copyWord dict' heap word) := by
  unfold copyWord
  split
  · exact Lockstep.bind (copyOf_preserved hgrows _) fun _ ↦ .refl _
  · exact Preserved.ofExcept (plainValue_preserved hgrows word)

theorem copyFields_preserved (hgrows : dict.GrowsTo dict') (object : Unfilled) (count : Nat) :
    ∀ offset, Preserved (copyFields dict heap object offset count)
      (copyFields dict' heap object offset count) := by
  induction count with
  | zero => exact fun _ ↦ .refl _
  | succ count ih =>
    intro offset
    refine Lockstep.bind (.refl _) fun word ↦ ?_
    refine Lockstep.bind (copyWord_preserved hgrows word) fun value ↦ ?_
    exact Lockstep.bind (.refl _) fun _ ↦ ih (offset + 1)

theorem copyPending_preserved (hgrows : dict.GrowsTo dict') (rounds : Nat) :
    Preserved (copyPending dict heap rounds) (copyPending dict' heap rounds) := by
  induction rounds with
  | zero => exact .refl _
  | succ rounds ih =>
    refine Lockstep.bind (.refl _) fun st ↦ ?_
    split
    · exact .refl _
    · refine Lockstep.bind (.refl _) fun _ ↦ ?_
      exact Lockstep.bind (copyFields_preserved hgrows _ _ 0) fun _ ↦ ih

theorem copyOut_preserved (hgrows : dict.GrowsTo dict') (index : Nat) :
    Preserved (copyOut dict heap index) (copyOut dict' heap index) := by
  refine Lockstep.bind (copyOf_preserved hgrows index) fun record ↦ ?_
  exact Lockstep.bind (copyPending_preserved hgrows heap.used) fun _ ↦ .refl _

/-- What a word decodes to does not change as the dictionary grows. -/
theorem decode_preserved (hgrows : dict.GrowsTo dict') (word : Word) :
    Preserved (decode dict heap word) (decode dict' heap word) := by
  cases hview : word.view with
  | reference index =>
    rintro records _ rfl
    have hpreserved : Preserved (copyOut dict heap index) (copyOut dict' heap index) :=
      copyOut_preserved hgrows index
    have hcopy := hpreserved { records } { records } rfl
    unfold decode
    rw [hview]
    simp only
    cases h : copyOut dict heap index { records } with
    | ok value st =>
      rw [h] at hcopy
      obtain ⟨_, hcopy', rfl⟩ := hcopy
      rw [hcopy']
      exact Follows.of_ok rfl
    | error failure st => exact Follows.of_waived trivial
  | _ =>
    rw [decode_of_plain fun index ↦ by simp [hview], decode_of_plain fun index ↦ by simp [hview]]
    exact Preserved.ofExcept (plainValue_preserved hgrows word)

end Grown

/-! ## What words decode to -/

section Decode

variable {dict : Dictionary} {heap : Heap} {records after : Records} {word : Word} {index : Nat}
  {value : Value}

/-- A reference decodes to a record whose origin is what it refers to, if it decodes at all. -/
theorem decode_reference (hview : word.view = .reference index)
    (h : decode dict heap word records = .ok value after) :
    records.Keeps after ∧
      ∃ id, value = .record id ∧ after.origin? id = some ⟨heap.id, index⟩ := by
  have hspec := decode_reference_spec dict heap hview records
  unfold Ensures at hspec
  rw [h] at hspec
  obtain ⟨id, copies, hvalue, hid, hcopied⟩ := hspec
  exact ⟨hcopied.kept, id, hvalue, hcopied.origin? hid⟩

theorem decode_small {n : Nat} (hview : word.view = .small n) (records : Records) :
    decode dict heap word records = .ok (.int (.ofNat n)) records := by
  rw [decode_of_plain fun index ↦ by simp [hview]]
  exact ofExcept_of_ok (plainValue_of_small hview) records

/-- The word of an integer that is not negative decodes to it. -/
theorem decode_small_toNat {n : Int32} (h : ¬ n < 0) (records : Records) :
    decode dict heap (.small n.toInt.toNat) records = .ok (.int n) records := by
  have hlt : n.toInt.toNat < 0x80000000 := by
    have := n.toInt_lt
    omega
  have hn : Int32.ofNat n.toInt.toNat = n := by
    rw [Int32.lt_iff_toInt_lt] at h
    apply Int32.toInt_inj.mp
    rw [Int32.toInt_ofNat_of_lt hlt]
    simp at h
    omega
  rw [decode_small (Word.view_small hlt), hn]

theorem decode_value (h : dict.value word = .ok value) (records : Records) :
    decode dict heap word records = .ok value records := by
  obtain ⟨index, hview, -⟩ := Dictionary.value_eq_ok.mp h
  rw [decode_of_plain fun index ↦ by simp [hview]]
  exact ofExcept_of_ok (plainValue_of_value h) records

/-- A word that names an entry decodes to it, if it decodes at all. -/
theorem decode_entry (hview : word.view = .entry index)
    (h : decode dict heap word records = .ok value after) :
    dict.value word = .ok value ∧ after = records := by
  cases hvalue : dict.value word with
  | ok found =>
    rw [decode_value hvalue records] at h
    obtain ⟨rfl, rfl⟩ := EStateM.Result.ok.inj h
    exact ⟨rfl, rfl⟩
  | error failure =>
    rw [decode_of_plain fun index ↦ by simp [hview]] at h
    unfold plainValue Word.asSmall? at h
    rw [hview] at h
    simp only [hvalue] at h
    cases h

end Decode

/-! ## Encoding -/

namespace Value

/-- The word that a value has without an entry: that of a number, or that of the object that a
record was copied from. -/
def ownWord? (records : Records) (heap : Heap) : Value → Option Word
  | .int n => Word.ofInt? n
  | .record id => do
    let origin ← records.origin? id
    if origin.heap = heap.id then Word.reference? origin.index else none
  | _ => none

/-- The value is a record that was copied from the heap. -/
def IsCopy (records : Records) (heap : Heap) (value : Value) (origin : Origin) : Prop :=
  ∃ id, value = .record id ∧ records.origin? id = some origin ∧ origin.heap = heap.id

variable {records : Records} {heap : Heap} {value : Value} {word : Word}

theorem ownWord?_of_isCopy {origin : Origin} (h : value.IsCopy records heap origin) :
    value.ownWord? records heap = Word.reference? origin.index := by
  obtain ⟨id, rfl, horigin, hheap⟩ := h
  simp only [ownWord?, horigin, bind, Option.bind_some]
  exact if_pos hheap

/-- Only numbers and copies of objects have words without an entry. -/
theorem of_ownWord? (h : value.ownWord? records heap = some word) :
    (∃ n, value = .int n ∧ ¬ n < 0 ∧ word = .small n.toInt.toNat) ∨
      ∃ origin, value.IsCopy records heap origin ∧ Word.reference? origin.index = some word := by
  unfold ownWord? at h
  split at h
  · next n =>
    left
    unfold Word.ofInt? at h
    split at h
    · simp at h
    · next hnonneg => exact ⟨n, rfl, hnonneg, (Option.some.inj h).symm⟩
  · next id =>
    right
    obtain ⟨origin, horigin, h⟩ := Option.bind_eq_some_iff.mp h
    split at h
    · next hheap => exact ⟨origin, ⟨id, rfl, horigin, hheap⟩, h⟩
    · simp at h
  · simp at h

end Value

section Encode

variable {records : Records} {heap : Heap} {value : Value} {word : Word} {dict : Dictionary}

/-- A value with a word of its own is never registered. -/
theorem encode_of_ownWord? (h : value.ownWord? records heap = some word) (dict : Dictionary) :
    encode records heap value dict = .ok word dict := by
  rcases Value.of_ownWord? h with ⟨n, rfl, -, -⟩ | ⟨origin, ⟨id, rfl, horigin, hheap⟩, hword⟩
  · unfold Value.ownWord? at h
    unfold encode
    simp only [h]
    rfl
  · unfold encode
    simp only [horigin, hword, if_pos hheap]
    rfl

/-- Every other value is registered, unless it claims an origin that no reference reaches. -/
theorem encode_of_none (h : value.ownWord? records heap = none)
    (hcopy : ∀ origin, ¬ value.IsCopy records heap origin) :
    encode records heap value = Dictionary.intern value := by
  unfold encode
  split
  · next n =>
    simp only [Value.ownWord?] at h
    rw [h]
  · next id =>
    split
    · next origin horigin =>
      rw [if_neg fun hheap ↦ hcopy origin ⟨id, rfl, horigin, hheap⟩]
    · rfl
  · rfl

/-- The value is no record that claims an origin in the heap, or the origin can be decoded. -/
def Value.Decodable (dict : Dictionary) (heap : Heap) (records : Records) (value : Value) : Prop :=
  ∀ origin, value.IsCopy records heap origin → ∃ reference found after,
    Word.reference? origin.index = some reference ∧
      decode dict heap reference records = .ok found after

theorem Value.same_of_sharesEntry {found : Value} (h : value.sharesEntry found = true)
    (records : Records) : value.same records found = true := by
  cases value <;> cases found <;> simp_all [Value.sharesEntry, Value.same, Records.sameObject]

/-- The word of a value that was registered decodes to the same value. -/
theorem decode_interned {dict' : Dictionary} {found : Value}
    (h : Dictionary.Interned value dict word dict' found) (heap : Heap) (records : Records) :
    ∃ found after, decode dict' heap word records = .ok found after ∧
      value.same after found = true :=
  ⟨found, records, decode_value h.names records, Value.same_of_sharesEntry h.shares records⟩

/-- A value with a word of its own is what this word decodes to. -/
theorem decode_ownWord? (hvalue : value.Decodable dict heap records)
    (h : value.ownWord? records heap = some word) :
    ∃ found after, decode dict heap word records = .ok found after ∧
      value.same after found = true := by
  rcases Value.of_ownWord? h with ⟨n, rfl, hnonneg, rfl⟩ | ⟨origin, hcopy, hword⟩
  · exact ⟨.int n, records, decode_small_toNat hnonneg records, decide_eq_true rfl⟩
  · obtain ⟨reference, found, after, hreference, hdecode⟩ := hvalue origin hcopy
    obtain rfl := Option.some.inj (hreference.symm.trans hword)
    obtain ⟨id, rfl, horigin, hheap⟩ := hcopy
    obtain ⟨hkeeps, other, rfl, hother⟩ :=
      decode_reference (Word.view_of_reference? hword) hdecode
    refine ⟨_, after, hdecode, ?_⟩
    have hsame : origin = ⟨heap.id, origin.index⟩ := by
      rw [← hheap]
    simp only [Value.same, Records.sameObject, hkeeps.origin? horigin, hother]
    simp [← hsame]

/-- Encoding a value gives a word that decodes to the same value, and every word that had a value
keeps it. -/
theorem encode_decode (hroom : dict.size < indexBound)
    (hvalue : value.Decodable dict heap records) :
    ∃ word dict', encode records heap value dict = .ok word dict' ∧
      (∃ found after, decode dict' heap word records = .ok found after ∧
        value.same after found = true) ∧ dict.GrowsTo dict' := by
  cases hown : value.ownWord? records heap with
  | some word =>
    exact ⟨word, dict, encode_of_ownWord? hown dict, decode_ownWord? hvalue hown, .refl dict⟩
  | none =>
    have hcopy (origin : Origin) : ¬ value.IsCopy records heap origin := by
      intro hcopy
      obtain ⟨reference, -, -, hreference, -⟩ := hvalue origin hcopy
      rw [← Value.ownWord?_of_isCopy hcopy, hown] at hreference
      simp at hreference
    obtain ⟨word, dict', found, hword, hinterned⟩ := Dictionary.intern_of_lt value hroom
    refine ⟨word, dict', ?_, decode_interned hinterned heap records, hinterned.grows⟩
    rw [encode_of_none hown hcopy]
    exact hword

/-- The value of a word goes back to the word, unless it is an entry for a value with a word of its
own. -/
theorem decode_encode (hdict : dict.IsDistinct) {after : Records}
    (h : decode dict heap word records = .ok value after)
    (hentry : ∀ index, word.view = .entry index →
      (∀ n, value = .int n → n < 0) ∧ ∀ origin, ¬ value.IsCopy after heap origin) :
    encode after heap value dict = .ok word dict := by
  cases hview : word.view with
  | small n =>
    obtain ⟨hword, hlt⟩ := Word.small_of_view hview
    rw [decode_small hview] at h
    obtain ⟨rfl, rfl⟩ := EStateM.Result.ok.inj h
    apply encode_of_ownWord?
    rw [← hword]
    exact Word.ofInt?_ofNat hlt
  | reference index =>
    obtain ⟨-, id, rfl, horigin⟩ := decode_reference hview h
    apply encode_of_ownWord?
    rw [Value.ownWord?_of_isCopy ⟨id, rfl, horigin, rfl⟩]
    exact Word.reference?_of_view hview
  | entry index =>
    obtain ⟨hint, hcopy⟩ := hentry index hview
    have hnone : value.ownWord? after heap = none := by
      cases hown : value.ownWord? after heap with
      | none => rfl
      | some own =>
        rcases Value.of_ownWord? hown with ⟨n, hn, hnonneg, -⟩ | ⟨origin, horigin, -⟩
        · exact absurd (hint n hn) hnonneg
        · exact absurd horigin (hcopy origin)
    rw [encode_of_none hnone hcopy]
    exact hdict.intern_value (decode_entry hview h).1

end Encode

/-- What a round trip of values and words gives. A value is encoded to a word that decodes to the
same value, and no other word changes its meaning. A word is decoded to a value that is encoded to
the word, where only entries of numbers and of copies go to the words of these. -/
theorem encoding_round_trip {dict : Dictionary} (hdict : dict.Registered) (heap : Heap)
    (records : Records) :
    (dict.size < indexBound → ∀ value : Value, value.Decodable dict heap records →
      ∃ word dict', encode records heap value dict = .ok word dict' ∧
        (∃ found after, decode dict' heap word records = .ok found after ∧
          value.same after found = true) ∧
        ∀ other store found after, decode dict heap other store = .ok found after →
          decode dict' heap other store = .ok found after) ∧
    ∀ word value after, decode dict heap word records = .ok value after →
      (∀ index n, word.view = .entry index → value = .int n → ¬ n < 0 →
        encode after heap value dict = .ok (.small n.toInt.toNat) dict) ∧
      (∀ index origin reference, word.view = .entry index → value.IsCopy after heap origin →
        Word.reference? origin.index = some reference →
        encode after heap value dict = .ok reference dict) ∧
      ((∀ index, word.view = .entry index →
          (∀ n, value = .int n → n < 0) ∧ ∀ origin, ¬ value.IsCopy after heap origin) →
        encode after heap value dict = .ok word dict) := by
  refine ⟨fun hroom value hvalue ↦ ?_, fun word value after h ↦ ⟨?_, ?_, ?_⟩⟩
  · obtain ⟨word, dict', hencode, hdecode, hgrows⟩ := encode_decode hroom hvalue
    exact ⟨word, dict', hencode, hdecode,
      fun other _ _ _ hother ↦ (decode_preserved hgrows other).ok hother⟩
  · rintro index n - rfl hnonneg
    have hown : (Value.int n).ownWord? after heap = some (.small n.toInt.toNat) :=
      Word.ofInt?_of_nonneg hnonneg
    exact encode_of_ownWord? hown dict
  · intro index origin reference _ hcopy hreference
    apply encode_of_ownWord?
    rw [Value.ownWord?_of_isCopy hcopy]
    exact hreference
  · exact decode_encode hdict.isDistinct h

/-! An object that refers to itself, a copy of it that was registered, and a registered number. -/

def ringShape : Shape := ⟨["next"]⟩

def ringRecords : Records := ⟨#[⟨ringShape, #[.record 0], some ⟨3, 0⟩⟩]⟩

def ringHeap : Heap := { id := 3, capacity := 8, cells := #[⟨6⟩, .mark, ⟨0⟩] }

def ringDictionary : Dictionary := ⟨#[.undefined, .shape 12 ringShape, .int 7, .record 0]⟩

theorem ringDictionary_registered : ringDictionary.Registered := by
  have hshapeWord : Word.entry? 1 = some ⟨6⟩ := by decide
  have hshape : Dictionary.Registered ⟨#[.undefined, .shape 12 ringShape]⟩ :=
    .intern .new (Dictionary.intern_of_new (by decide +kernel) hshapeWord)
  have hintWord : Word.entry? 2 = some ⟨10⟩ := by decide
  have hint : Dictionary.Registered ⟨#[.undefined, .shape 12 ringShape, .int 7]⟩ :=
    .intern hshape (Dictionary.intern_of_new (by decide +kernel) hintWord)
  have hrecordWord : Word.entry? 3 = some ⟨14⟩ := by decide
  exact .intern hint (Dictionary.intern_of_new (by decide +kernel) hrecordWord)

theorem ring_round_trip :
    encode ringRecords ringHeap (.int 7) ringDictionary = .ok (.small 7) ringDictionary ∧
    encode ringRecords ringHeap (.record 0) ringDictionary = .ok ⟨0⟩ ringDictionary ∧
    (∃ value after, decode ringDictionary ringHeap ⟨0⟩ ringRecords = .ok value after ∧
      encode after ringHeap value ringDictionary = .ok ⟨0⟩ ringDictionary) ∧
    ∃ word dict', encode ringRecords ringHeap (.record 0) ringDictionary = .ok word dict' ∧
      ∃ found after, decode dict' ringHeap word ringRecords = .ok found after ∧
        (Value.record 0).same after found = true := by
  have hround := encoding_round_trip ringDictionary_registered ringHeap ringRecords
  have hring : ∃ value after, decode ringDictionary ringHeap ⟨0⟩ ringRecords = .ok value after := by
    have hok : (match decode ringDictionary ringHeap ⟨0⟩ ringRecords with
      | .ok _ _ => true
      | .error _ _ => false) = true := by decide +kernel
    cases h : decode ringDictionary ringHeap ⟨0⟩ ringRecords with
    | ok value after => exact ⟨value, after, rfl⟩
    | error failure after => simp [h] at hok
  have hcopy : (Value.record 0).IsCopy ringRecords ringHeap ⟨3, 0⟩ := ⟨0, rfl, rfl, rfl⟩
  refine ⟨?_, ?_, ?_, ?_⟩
  · exact (hround.2 ⟨10⟩ (.int 7) ringRecords rfl).1 2 7 (by decide) rfl (by decide)
  · exact (hround.2 ⟨14⟩ (.record 0) ringRecords rfl).2.1 3 ⟨3, 0⟩ ⟨0⟩ (by decide) hcopy rfl
  · obtain ⟨value, after, h⟩ := hring
    refine ⟨value, after, h, (hround.2 ⟨0⟩ value after h).2.2 ?_⟩
    intro index hview
    exact absurd hview (by simp [show (⟨0⟩ : Word).view = .reference 0 by decide])
  · obtain ⟨word, dict', hencode, hdecode, -⟩ := hround.1 (by decide) (.record 0) (by
      rintro origin ⟨id, hid, horigin, -⟩
      obtain rfl := Value.record.inj hid
      obtain rfl := Option.some.inj horigin
      obtain ⟨value, after, h⟩ := hring
      exact ⟨⟨0⟩, value, after, rfl, h⟩)
    exact ⟨word, dict', hencode, hdecode⟩

end TandemScript
