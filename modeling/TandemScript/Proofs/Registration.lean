import Std.Data.HashMap
import TandemScript.Proofs.Preparation

/-!
# The interning table

What a dictionary answers over a whole history of registrations, from the new one on. Beside the
entries it may keep an index of them by key, where a function, a shape or a record has the address
it was allocated at for its key: as long as different allocations have different addresses the
index is the inverse of the entries, and a search for a value that shares its entry finds the same.
-/

namespace TandemScript

/-! ## Histories of calls -/

section History

variable {σ : Type} (register : Value → EStateM Failure σ Word)

/-- What a call answers. -/
def answerOf (value : Value) (s : σ) : Except Failure Word :=
  match register value s with
  | .ok word _ => .ok word
  | .error failure _ => .error failure

/-- Every value of a list with the answer to its registration, when they are made in turn. -/
def answers : List Value → σ → List (Value × Except Failure Word)
  | [], _ => []
  | value :: values, s => (value, answerOf register value s) ::
      answers values (finalState (register value s))

/-- The state behind all registrations of a list. -/
def stateAfter (values : List Value) (s : σ) : σ :=
  values.foldl (fun s value ↦ finalState (register value s)) s

theorem stateAfter_concat (values : List Value) (value : Value) (s : σ) :
    stateAfter register (values ++ [value]) s =
      finalState (register value (stateAfter register values s)) := by
  simp [stateAfter]

theorem answers_concat (values : List Value) (value : Value) (s : σ) :
    answers register (values ++ [value]) s = answers register values s ++
      [(value, answerOf register value (stateAfter register values s))] := by
  induction values generalizing s with
  | nil => rfl
  | cons first rest ih =>
    simp only [List.cons_append, answers, ih]
    rfl

variable {register : Value → EStateM Failure σ Word}

theorem mem_of_mem_answers {values : List Value} {s : σ} {value : Value}
    {answer : Except Failure Word} (h : (value, answer) ∈ answers register values s) :
    value ∈ values := by
  induction values generalizing s with
  | nil => simp [answers] at h
  | cons first rest ih =>
    rcases List.mem_cons.mp h with heq | h
    · obtain ⟨rfl, -⟩ := Prod.mk.inj heq
      exact List.mem_cons_self
    · exact List.mem_cons_of_mem _ (ih h)

end History

/-! ## The table with an index -/

/-- What a value is looked up by. -/
inductive Key where
  | undefined
  | global
  | int (n : Int32)
  | str (s : String)
  | address (n : Nat)
  deriving DecidableEq, Hashable

/-- The key of a value: numbers and strings have their content, what is allocated has its place. -/
def Value.key (address : Value → Nat) : Value → Key
  | .undefined => .undefined
  | .global => .global
  | .int n => .int n
  | .str s => .str s
  | value => .address (address value)

/-- Functions, shapes and records are allocated. -/
def Value.isAllocated : Value → Bool
  | .function _ | .shape .. | .record _ => true
  | _ => false

/-- The values are alive together: what shares its identity is one value, and different ones have
different addresses. -/
structure Living (address : Value → Nat) (values : List Value) : Prop where
  same : ∀ a ∈ values, ∀ b ∈ values, a.sharesEntry b = true → a = b
  apart : ∀ a ∈ values, ∀ b ∈ values, a.isAllocated = true → b.isAllocated = true →
    address a = address b → a = b

/-- A dictionary that keeps the place of every key beside its entries. -/
structure Table where
  entries : Array Value
  index : Std.HashMap Key Nat

namespace Table

def new : Table :=
  ⟨#[.undefined], (∅ : Std.HashMap Key Nat).insert .undefined 0⟩

/-- The word of a value, looked up by its key and added at the end if there is none. -/
def register (address : Value → Nat) (value : Value) : EStateM Failure Table Word := fun table ↦
  match table.index[value.key address]? with
  | some index =>
    match Word.entry? index with
    | some word => .ok word table
    | none => .error (.inconsistent .dictionaryFull) table
  | none =>
    if indexBound ≤ table.entries.size then .error (.inconsistent .dictionaryFull) table
    else
      let grown : Table := ⟨table.entries.push value,
        table.index.insert (value.key address) table.entries.size⟩
      match Word.entry? table.entries.size with
      | some word => .ok word grown
      | none => .error (.inconsistent .dictionaryFull) grown

/-- The table has the entries of the dictionary, and its index is their inverse. -/
structure Represents (address : Value → Nat) (table : Table) (dict : Dictionary) : Prop where
  entries : table.entries = dict.entries
  index : ∀ key i, table.index[key]? = some i ↔
    ∃ value, dict.get? i = some value ∧ value.key address = key

end Table

/-! ## Keys -/

section Keys

variable {address : Value → Nat} {values before : List Value} {a b : Value}

theorem Living.mono (h : Living address values) (hsub : ∀ a ∈ before, a ∈ values) :
    Living address before :=
  ⟨fun a ha b hb ↦ h.same a (hsub a ha) b (hsub b hb),
    fun a ha b hb ↦ h.apart a (hsub a ha) b (hsub b hb)⟩

/-- The undefined value is always there. -/
theorem Living.undefined (h : Living address values) : Living address (.undefined :: values) := by
  constructor
  · intro a ha b hb hshares
    rcases List.mem_cons.mp ha with rfl | ha <;> rcases List.mem_cons.mp hb with rfl | hb
    · rfl
    · cases b <;> simp_all [Value.sharesEntry]
    · cases a <;> simp_all [Value.sharesEntry]
    · exact h.same a ha b hb hshares
  · intro a ha b hb hallocated hallocated' heq
    rcases List.mem_cons.mp ha with rfl | ha
    · simp [Value.isAllocated] at hallocated
    · rcases List.mem_cons.mp hb with rfl | hb
      · simp [Value.isAllocated] at hallocated'
      · exact h.apart a ha b hb hallocated hallocated' heq

/-- Values that are alive together are told apart by their keys. -/
theorem Living.eq_of_key (h : Living address values) (ha : a ∈ values) (hb : b ∈ values)
    (hkey : a.key address = b.key address) : a = b := by
  have hcontent : a.isAllocated = true ∧ b.isAllocated = true ∧ address a = address b ∨ a = b := by
    cases a <;> cases b <;> simp_all [Value.key, Value.isAllocated]
  rcases hcontent with ⟨hallocated, hallocated', heq⟩ | rfl
  · exact h.apart a ha b hb hallocated hallocated' heq
  · rfl

end Keys

/-! ## One registration -/

namespace Dictionary

variable {dict : Dictionary} {value : Value} {index : Nat}

theorem Registered.size_le (h : dict.Registered) : dict.size ≤ indexBound := by
  induction h with
  | new => decide
  | @intern dict dict' value word _ hword ih =>
    unfold Dictionary.intern at hword
    split at hword
    · split at hword
      · obtain ⟨-, rfl⟩ := EStateM.Result.ok.inj hword
        exact ih
      · simp at hword
    · split at hword
      · next hentry =>
        obtain ⟨-, rfl⟩ := EStateM.Result.ok.inj hword
        unfold Word.entry? at hentry
        split at hentry
        · next hlt =>
          simp only [size, Array.size_push] at hlt ⊢
          omega
        · simp at hentry
      · simp at hword

/-- What a registration does: it finds the value, or adds it, or the dictionary is full. -/
inductive Interns (value : Value) (dict : Dictionary) : Prop where
  | known (index : Nat) (word : Word) (hindex : dict.indexOf? value = some index)
    (hword : Word.entry? index = some word) (hintern : intern value dict = .ok word dict)
  | added (word : Word) (hindex : dict.indexOf? value = none) (hroom : dict.size < indexBound)
    (hword : Word.entry? dict.size = some word)
    (hintern : intern value dict = .ok word ⟨dict.entries.push value⟩)
  | full (hindex : dict.indexOf? value = none) (hfull : indexBound ≤ dict.size)
    (hintern : intern value dict = .error (.inconsistent .dictionaryFull) dict)

theorem Registered.interns (h : dict.Registered) (value : Value) : dict.Interns value := by
  cases hindex : dict.indexOf? value with
  | some index =>
    obtain ⟨found, hfound, -⟩ := indexOf?_eq_some hindex
    have hlt : index < dict.size := (Array.getElem?_eq_some_iff.mp hfound).1
    obtain ⟨word, hword⟩ := Word.exists_entry? (Nat.lt_of_lt_of_le hlt h.size_le)
    refine .known index word hindex hword ?_
    unfold Dictionary.intern
    simp only [hindex, hword]
  | none =>
    by_cases hroom : dict.size < indexBound
    · obtain ⟨word, hword⟩ := Word.exists_entry? hroom
      exact .added word hindex hroom hword (intern_of_new hindex hword)
    · refine .full hindex (Nat.le_of_not_lt hroom) ?_
      unfold Dictionary.intern Word.entry?
      simp only [hindex, if_neg hroom]

/-! ## Whole histories -/

/-- The dictionary behind the registrations of a list. -/
def after (values : List Value) : Dictionary :=
  stateAfter Dictionary.intern values .new

/-- The answers to the registrations of a list. -/
def log (values : List Value) : List (Value × Except Failure Word) :=
  answers Dictionary.intern values .new

/-- What the answers so far say about the dictionary. -/
structure Records (dict : Dictionary) (values : List Value)
    (log : List (Value × Except Failure Word)) : Prop where
  registered : dict.Registered
  entries : ∀ index found, dict.get? index = some found → found ∈ Value.undefined :: values
  logged : ∀ value ∈ values, ∃ answer, (value, answer) ∈ log
  granted : ∀ value word, (value, .ok word) ∈ log → dict.value word = .ok value
  refused : ∀ value failure, (value, .error failure) ∈ log → indexBound ≤ dict.size

section Histories

variable {address : Value → Nat} {values before later : List Value}
  {log : List (Value × Except Failure Word)}

theorem Records.new : Records new [] [] where
  registered := .new
  entries := by
    intro index found hfound
    have hindex : index < 1 := (Array.getElem?_eq_some_iff.mp hfound).1
    obtain rfl : index = 0 := by omega
    obtain rfl := Option.some.inj hfound
    exact List.mem_singleton_self _
  logged := by simp
  granted := by simp
  refused := by simp

/-- The entry that a value shares is the value, as long as all of them are alive. -/
theorem Records.get?_of_indexOf? (h : dict.Records values log)
    (hliving : Living address (value :: values)) (hindex : dict.indexOf? value = some index) :
    dict.get? index = some value := by
  obtain ⟨found, hfound, hshares⟩ := indexOf?_eq_some hindex
  have hmem : found ∈ Value.undefined :: value :: values := by
    rcases List.mem_cons.mp (h.entries index found hfound) with rfl | hmem
    · exact List.mem_cons_self
    · exact List.mem_cons_of_mem _ (List.mem_cons_of_mem _ hmem)
  rw [hliving.undefined.same value (by simp) found hmem hshares]
  exact hfound

/-- One answer more, from a dictionary that grew. -/
theorem Records.snoc (h : dict.Records values log) {dict' : Dictionary}
    (hregistered : dict'.Registered) (hgrows : dict.GrowsTo dict') {value : Value}
    (hentries : ∀ index found, dict'.get? index = some found →
      dict.get? index = some found ∨ found = value) {answer : Except Failure Word}
    (hgranted : ∀ word, answer = .ok word → dict'.value word = .ok value)
    (hrefused : ∀ failure, answer = .error failure → indexBound ≤ dict'.size) :
    dict'.Records (values ++ [value]) (log ++ [(value, answer)]) where
  registered := hregistered
  entries index found hfound := by
    rcases hentries index found hfound with hold | rfl
    · rcases List.mem_cons.mp (h.entries index found hold) with rfl | hmem
      · exact List.mem_cons_self
      · exact List.mem_cons_of_mem _ (List.mem_append_left _ hmem)
    · simp
  logged v hv := by
    rcases List.mem_append.mp hv with hv | hv
    · obtain ⟨answer, hanswer⟩ := h.logged v hv
      exact ⟨answer, List.mem_append_left _ hanswer⟩
    · obtain rfl := List.mem_singleton.mp hv
      exact ⟨_, List.mem_append_right _ (List.mem_singleton_self _)⟩
  granted v word hmem := by
    rcases List.mem_append.mp hmem with hmem | hmem
    · exact hgrows.value (h.granted v word hmem)
    · obtain ⟨rfl, hword⟩ := Prod.mk.inj (List.mem_singleton.mp hmem)
      exact hgranted word hword.symm
  refused v failure hmem := by
    rcases List.mem_append.mp hmem with hmem | hmem
    · exact Nat.le_trans (h.refused v failure hmem) hgrows.size_le
    · exact hrefused failure (Prod.mk.inj (List.mem_singleton.mp hmem)).2.symm

theorem Records.concat (h : dict.Records values log) (hliving : Living address (value :: values)) :
    (finalState (Dictionary.intern value dict)).Records (values ++ [value])
      (log ++ [(value, answerOf Dictionary.intern value dict)]) := by
  cases h.registered.interns value with
  | known index word hindex hword hintern =>
    simp only [finalState, answerOf, hintern]
    refine h.snoc h.registered (.refl _) (fun _ _ hfound ↦ .inl hfound) ?_ (by simp)
    rintro _ ⟨⟩
    exact value_eq_ok.mpr ⟨index, Word.view_of_entry? hword, h.get?_of_indexOf? hliving hindex⟩
  | added word hindex hroom hword hintern =>
    have hlast : (⟨dict.entries.push value⟩ : Dictionary).get? dict.size = some value := by
      simp [get?, size]
    simp only [finalState, answerOf, hintern]
    refine h.snoc (.intern h.registered hintern) (.push dict value) ?_ ?_ (by simp)
    · intro index found hfound
      simp only [get?, Array.getElem?_push] at hfound
      split at hfound
      · exact .inr (Option.some.inj hfound).symm
      · exact .inl hfound
    · rintro _ ⟨⟩
      exact value_eq_ok.mpr ⟨_, Word.view_of_entry? hword, hlast⟩
  | full hindex hfull hintern =>
    simp only [finalState, answerOf, hintern]
    exact h.snoc h.registered (.refl _) (fun _ _ hfound ↦ .inl hfound) (by simp)
      fun _ _ ↦ hfull

/-- A value that was registered before has an entry, unless the dictionary is full. -/
theorem Records.seen (h : dict.Records values log) {earlier : Value}
    (hearlier : earlier ∈ Value.undefined :: values) (hroom : dict.size < indexBound) :
    ∃ index, dict.get? index = some earlier := by
  rcases List.mem_cons.mp hearlier with rfl | hearlier
  · exact ⟨0, h.registered.undefined⟩
  · obtain ⟨answer, hanswer⟩ := h.logged earlier hearlier
    cases answer with
    | ok word =>
      obtain ⟨index, -, hget⟩ := value_eq_ok.mp (h.granted earlier word hanswer)
      exact ⟨index, hget⟩
    | error failure => exact absurd (h.refused earlier failure hanswer) (Nat.not_le_of_lt hroom)

/-- Values have the same word exactly when they share an entry. -/
theorem Records.word_eq_iff (h : dict.Records values log) (hliving : Living address values)
    {a b : Value} {word word' : Word} (ha : a ∈ values) (hb : b ∈ values)
    (hword : (a, .ok word) ∈ log) (hword' : (b, .ok word') ∈ log) :
    word = word' ↔ a.sharesEntry b = true := by
  have hvalue := h.granted a word hword
  have hvalue' := h.granted b word' hword'
  constructor
  · rintro rfl
    obtain rfl := Except.ok.inj (hvalue.symm.trans hvalue')
    exact a.sharesEntry_self
  · intro hshares
    obtain rfl := hliving.same a ha b hb hshares
    have hintern := h.registered.isDistinct.intern_value hvalue
    rw [h.registered.isDistinct.intern_value hvalue'] at hintern
    exact (EStateM.Result.ok.inj hintern).1.symm

theorem after_concat (values : List Value) (value : Value) :
    after (values ++ [value]) = finalState (Dictionary.intern value (after values)) :=
  stateAfter_concat Dictionary.intern values value .new

theorem after_grows (before later : List Value) :
    (after before).GrowsTo (after (before ++ later)) := by
  induction later using List.reverseRecOn with
  | nil =>
    rw [List.append_nil]
    exact .refl _
  | append_singleton later value ih =>
    rw [← List.append_assoc, after_concat]
    exact ih.trans (intern_grows value _)

theorem after_records (hliving : Living address values) :
    (after values).Records values (Dictionary.log values) := by
  induction values using List.reverseRecOn with
  | nil => exact .new
  | append_singleton values value ih =>
    have hbefore : Living address values := hliving.mono fun a ha ↦ List.mem_append_left _ ha
    rw [after_concat, Dictionary.log, answers_concat]
    have hnow : Living address (value :: values) := by
      refine hliving.mono fun a ha ↦ ?_
      rcases List.mem_cons.mp ha with rfl | ha
      · simp
      · exact List.mem_append_left _ ha
    exact (ih hbefore).concat hnow

end Histories

end Dictionary

/-! ## The table beside the dictionary -/

namespace Table

/-- The table behind the registrations of a list. -/
def after (address : Value → Nat) (values : List Value) : Table :=
  stateAfter (register address) values .new

variable {address : Value → Nat} {values before later : List Value} {value : Value}
  {table : Table} {dict : Dictionary} {log : List (Value × Except Failure Word)}

theorem new_represents (address : Value → Nat) : new.Represents address .new where
  entries := rfl
  index := by
    intro key i
    rw [new, Std.HashMap.getElem?_insert]
    constructor
    · intro h
      split at h
      · next heq =>
        obtain rfl := Option.some.inj h
        exact ⟨.undefined, rfl, eq_of_beq heq⟩
      · simp at h
    · rintro ⟨value, hvalue, rfl⟩
      have hi : i < 1 := (Array.getElem?_eq_some_iff.mp hvalue).1
      obtain rfl : i = 0 := by omega
      obtain rfl : Value.undefined = value := Option.some.inj hvalue
      simp [Value.key]

/-- The index finds what a search of the entries finds. -/
theorem Represents.index_eq (h : table.Represents address dict) (hdict : dict.Records values log)
    (hliving : Living address (value :: values)) :
    table.index[value.key address]? = dict.indexOf? value := by
  cases hindex : dict.indexOf? value with
  | some index =>
    exact (h.index _ _).mpr ⟨value, hdict.get?_of_indexOf? hliving hindex, rfl⟩
  | none =>
    cases hfound : table.index[value.key address]? with
    | none => rfl
    | some index =>
      obtain ⟨found, hget, hkey⟩ := (h.index _ _).mp hfound
      have hmem : found ∈ Value.undefined :: value :: values := by
        rcases List.mem_cons.mp (hdict.entries index found hget) with rfl | hmem
        · exact List.mem_cons_self
        · exact List.mem_cons_of_mem _ (List.mem_cons_of_mem _ hmem)
      obtain rfl := hliving.undefined.eq_of_key hmem (by simp) hkey
      exact absurd found.sharesEntry_self (Dictionary.indexOf?_eq_none hindex hget)

theorem Represents.push (h : table.Represents address dict)
    (hnone : table.index[value.key address]? = none) :
    Represents address ⟨table.entries.push value,
      table.index.insert (value.key address) table.entries.size⟩ ⟨dict.entries.push value⟩ where
  entries := by rw [h.entries]
  index := by
    intro key i
    rw [Std.HashMap.getElem?_insert]
    simp only [Dictionary.get?, Array.getElem?_push, h.entries]
    constructor
    · intro hi
      split at hi
      · next heq =>
        obtain rfl := Option.some.inj hi
        exact ⟨value, by simp, eq_of_beq heq⟩
      · obtain ⟨found, hfound, hkey⟩ := (h.index key i).mp hi
        have hlt := (Array.getElem?_eq_some_iff.mp hfound).1
        exact ⟨found, by rw [if_neg (Nat.ne_of_lt hlt)]; exact hfound, hkey⟩
    · rintro ⟨found, hfound, rfl⟩
      split at hfound
      · next heq =>
        obtain rfl := Option.some.inj hfound
        simp [heq]
      · have hi := (h.index _ i).mpr ⟨found, hfound, rfl⟩
        -- the key that was just added is not the key of an entry
        rw [if_neg, hi]
        intro heq
        rw [eq_of_beq heq, hi] at hnone
        simp at hnone

/-- Table and dictionary go on alike. -/
theorem Represents.register (h : table.Represents address dict) (hdict : dict.Records values log)
    (hliving : Living address (value :: values)) :
    answerOf (Table.register address) value table = answerOf Dictionary.intern value dict ∧
      (finalState (Table.register address value table)).Represents address
        (finalState (Dictionary.intern value dict)) ∧
      ∀ failure, answerOf Dictionary.intern value dict = .error failure →
        finalState (Table.register address value table) = table := by
  have hindex := h.index_eq hdict hliving
  have hsize : table.entries.size = dict.size := by rw [h.entries, Dictionary.size]
  cases hdict.registered.interns value with
  | known index word hknown hword hintern =>
    have hregister : Table.register address value table = .ok word table := by
      unfold Table.register
      simp only [hindex, hknown, hword]
    simp only [answerOf, finalState, hregister, hintern]
    exact ⟨trivial, h, by simp⟩
  | added word hnew hroom hword hintern =>
    have hregister : Table.register address value table = .ok word
        ⟨table.entries.push value,
          table.index.insert (value.key address) table.entries.size⟩ := by
      unfold Table.register
      simp only [hindex, hnew, hsize, if_neg (Nat.not_le_of_lt hroom), hword]
    simp only [answerOf, finalState, hregister, hintern]
    exact ⟨trivial, h.push (by rw [hindex, hnew]), by simp⟩
  | full hnew hfull hintern =>
    have hregister : Table.register address value table =
        .error (.inconsistent .dictionaryFull) table := by
      unfold Table.register
      simp only [hindex, hnew, hsize, if_pos hfull]
    simp only [answerOf, finalState, hregister, hintern]
    exact ⟨trivial, h, by simp⟩

theorem after_concat (address : Value → Nat) (values : List Value) (value : Value) :
    after address (values ++ [value]) =
      finalState (register address value (after address values)) :=
  stateAfter_concat (register address) values value .new

theorem after_represents (hliving : Living address values) :
    (after address values).Represents address (Dictionary.after values) ∧
      answers (register address) values .new = Dictionary.log values := by
  induction values using List.reverseRecOn with
  | nil => exact ⟨new_represents address, rfl⟩
  | append_singleton values value ih =>
    have hbefore : Living address values := hliving.mono fun a ha ↦ List.mem_append_left _ ha
    have hvalue : Living address (value :: values) := hliving.mono (by simp +contextual)
    obtain ⟨hrepresents, hanswers⟩ := ih hbefore
    obtain ⟨hanswer, hstate, -⟩ :=
      hrepresents.register (Dictionary.after_records hbefore) hvalue
    refine ⟨?_, ?_⟩
    · rw [after_concat, Dictionary.after_concat]
      exact hstate
    · rw [answers_concat, Dictionary.log, answers_concat, hanswers, ← Dictionary.after,
        ← hanswer]
      rfl

end Table

/-! ## Append-only interning -/

/-- What one registration does to the dictionary and to the table behind a history. -/
structure Registration (address : Value → Nat) (before : List Value) (value : Value) : Prop where
  /-- One entry at most is added, at the end, and only for a value that was never seen. -/
  adds : Dictionary.after (before ++ [value]) = Dictionary.after before ∨
    Dictionary.after (before ++ [value]) = ⟨(Dictionary.after before).entries.push value⟩ ∧
      ∀ earlier ∈ Value.undefined :: before, value.sharesEntry earlier = false
  grants : (Dictionary.after before).size < indexBound →
    ∃ word, answerOf Dictionary.intern value (Dictionary.after before) = .ok word
  /-- Only a full table refuses a value, and then nothing is changed. -/
  refuses : ∀ failure, answerOf Dictionary.intern value (Dictionary.after before) = .error failure →
    failure = .inconsistent .dictionaryFull ∧ indexBound ≤ (Dictionary.after before).size ∧
      Dictionary.after (before ++ [value]) = Dictionary.after before ∧
      Table.after address (before ++ [value]) = Table.after address before

theorem Registration.of_living {address : Value → Nat} {before : List Value} {value : Value}
    (hliving : Living address (value :: before)) : Registration address before value := by
  have hbefore : Living address before := hliving.mono fun a ha ↦ List.mem_cons_of_mem _ ha
  have hrecords := Dictionary.after_records hbefore
  have htable := ((Table.after_represents hbefore).1.register hrecords hliving).2.2
  have hnext := Dictionary.after_concat before value
  rw [← Table.after_concat] at htable
  cases hrecords.registered.interns value with
  | known index word hindex hword hintern =>
    simp only [finalState, hintern] at hnext
    exact ⟨.inl hnext, by simp [answerOf, hintern], by simp [answerOf, hintern]⟩
  | added word hindex hroom hword hintern =>
    simp only [finalState, hintern] at hnext
    refine ⟨.inr ⟨hnext, ?_⟩, by simp [answerOf, hintern], by simp [answerOf, hintern]⟩
    intro earlier hearlier
    obtain ⟨index, hget⟩ := hrecords.seen hearlier hroom
    exact Bool.eq_false_iff.mpr (Dictionary.indexOf?_eq_none hindex hget)
  | full hindex hfull hintern =>
    simp only [finalState, hintern] at hnext
    refine ⟨.inl hnext, fun hroom ↦ by omega, ?_⟩
    intro failure hfailure
    have heq := htable failure hfailure
    simp only [answerOf, hintern] at hfailure
    exact ⟨(Except.error.inj hfailure).symm, hfull, hnext, heq⟩

/-- A dictionary is an append-only table of values without repetitions, however it was filled: the
answers and the entries are those of the table with an index, the undefined value comes first,
words agree exactly where the values share an entry, and every word goes on naming its value. -/
theorem registrations_intern {address : Value → Nat} {values : List Value}
    (hliving : Living address values) :
    (Table.after address values).Represents address (Dictionary.after values) ∧
      answers (Table.register address) values .new = Dictionary.log values ∧
      (Dictionary.after values).get? 0 = some .undefined ∧
      (∀ a word b word', (a, .ok word) ∈ Dictionary.log values →
        (b, .ok word') ∈ Dictionary.log values → (word = word' ↔ a.sharesEntry b = true)) ∧
      (∀ a word, (a, .ok word) ∈ Dictionary.log values →
        (Dictionary.after values).value word = .ok a) ∧
      ∀ before value later, values = before ++ value :: later →
        (Dictionary.after before).GrowsTo (Dictionary.after values) ∧
          Registration address before value := by
  have hrecords := Dictionary.after_records hliving
  obtain ⟨htable, hanswers⟩ := Table.after_represents hliving
  refine ⟨htable, hanswers, hrecords.registered.undefined, ?_, hrecords.granted, ?_⟩
  · intro a word b word' hword hword'
    exact hrecords.word_eq_iff hliving (mem_of_mem_answers hword) (mem_of_mem_answers hword')
      hword hword'
  · rintro before value later rfl
    refine ⟨Dictionary.after_grows before _, .of_living (hliving.mono ?_)⟩
    intro a ha
    rcases List.mem_cons.mp ha with rfl | ha <;> simp [*]

/-- A number and the string of the same text, a shape and a record, and some of them again. -/
def mixedValues : List Value :=
  [.int (-1), .str "-1", .shape 0 .empty, .record 0, .int (-1), .record 0, .undefined]

/-- The record lies behind the shape. -/
def mixedAddress : Value → Nat
  | .record _ => 16
  | _ => 0

def grantedWords (log : List (Value × Except Failure Word)) : List (Option Word) :=
  log.map fun entry ↦ entry.2.toOption

theorem registrations_intern_mixed :
    Living mixedAddress mixedValues ∧
      grantedWords (Dictionary.log mixedValues) =
        [some ⟨6⟩, some ⟨10⟩, some ⟨14⟩, some ⟨18⟩, some ⟨6⟩, some ⟨18⟩, some ⟨2⟩] ∧
      (Dictionary.after mixedValues).get? 0 = some .undefined ∧
      Registration mixedAddress (mixedValues.take 4) (.int (-1)) := by
  have hliving : Living mixedAddress mixedValues := by
    constructor <;>
      simp [mixedValues, mixedAddress, Value.sharesEntry, Value.isAllocated]
  obtain ⟨-, -, hzero, -, -, hcalls⟩ := registrations_intern hliving
  exact ⟨hliving, by decide +kernel, hzero, (hcalls _ _ [.record 0, .undefined] rfl).2⟩

end TandemScript
