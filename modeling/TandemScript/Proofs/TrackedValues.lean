import TandemScript.Proofs.Tracking

/-!
# Records and values that were shifted

What the records of the two runs have in common, and that nothing in them tells the runs apart:
values that correspond have the same text and the same type, one is the same as another on both
sides or on none, and built-in functions come to the same.
-/

namespace TandemScript

variable {o : Offsets} {ρ ρ' : Renaming}

/-! ## Records -/

/-- The records of the first run follow upon those from before. -/
structure Records.Tracks (o : Offsets) (ρ : Renaming) (records records' : Records) : Prop where
  size : records'.cells.size = records.cells.size + o.records
  each : ∀ id : Nat,
    Option.Rel (Record.Renamed ρ) records.cells[id]? records'.cells[id + o.records]?

namespace Records.Tracks

variable {records records' : Records} {record record' : Record} {id id' : RecordId}

theorem mono (h : records.Tracks o ρ records') (hρ : ρ.Extends ρ') : records.Tracks o ρ' records' :=
  ⟨h.size, fun id ↦ Option.Rel.mono (h.each id) fun _ _ h ↦ h.mono hρ⟩

theorem get? (h : records.Tracks o ρ records') (hρ : ρ.Shifts o) (hid : ρ.record id id') :
    Option.Rel (Record.Renamed ρ) (records.get? id) (records'.get? id') := by
  obtain rfl := (hρ.record _ _).mp hid
  exact h.each id

theorem renamed (h : records.Tracks o ρ records') (hρ : ρ.Shifts o) :
    records.Renamed ρ records' :=
  fun _ _ hid ↦ h.get? hρ hid

theorem add (h : records.Tracks o ρ records') (hρ : ρ.Shifts o)
    (hrecord : record.Renamed ρ record') :
    ρ.record (records.add record).1 (records'.add record').1 ∧
      (records.add record).2.Tracks o ρ (records'.add record').2 := by
  refine ⟨(hρ.record _ _).mpr h.size, ?_, fun id ↦ ?_⟩
  · unfold Records.add
    simp only [Array.size_push, h.size]
    omega
  · unfold Records.add
    simp only [Array.getElem?_push, h.size, Nat.add_right_cancel_iff]
    split
    · exact .some hrecord
    · exact h.each id

theorem setSlot (h : records.Tracks o ρ records') (hρ : ρ.Shifts o) (hid : ρ.record id id')
    (slot : Nat) {value value' : Value} (hvalue : value.Renamed ρ value') :
    (records.setSlot id slot value).Tracks o ρ (records'.setSlot id' slot value') := by
  obtain rfl := (hρ.record _ _).mp hid
  refine ⟨?_, fun other ↦ ?_⟩
  · unfold Records.setSlot
    simp only [Array.size_modify, h.size]
  · unfold Records.setSlot
    simp only [Array.getElem?_modify, Nat.add_right_cancel_iff]
    split
    · have heach := h.each other
      generalize records.cells[other]? = a, records'.cells[other + o.records]? = b at heach
      cases heach with
      | some hrecord => exact .some ⟨hrecord.shape, hrecord.fields.set slot hvalue, hrecord.origin⟩
      | none => exact .none
    · exact h.each other

theorem origin? (h : records.Tracks o ρ records') (hρ : ρ.Shifts o) (hid : ρ.record id id') :
    Option.Rel (Origin.Renamed ρ) (records.origin? id) (records'.origin? id') :=
  Option.Rel.bind (h.get? hρ hid) fun _ _ hrecord ↦ hrecord.origin

theorem field? (h : records.Tracks o ρ records') (hρ : ρ.Shifts o) (hid : ρ.record id id')
    (name : String) :
    Option.Rel (Value.Renamed ρ) (records.field? id name) (records'.field? id' name) := by
  refine Option.Rel.bind (h.get? hρ hid) fun record record' hrecord ↦ ?_
  unfold Record.get?
  rw [hrecord.shape]
  cases record'.shape.slot? name with
  | some slot => exact hrecord.fields slot
  | none => exact .none

end Records.Tracks

theorem Origin.Renamed.eq_iff (hρ : ρ.Shifts o) {a a' b b' : Origin} (ha : a.Renamed ρ a')
    (hb : b.Renamed ρ b') : a = b ↔ a' = b' := by
  obtain ⟨heap, index⟩ := a
  obtain ⟨heap', index'⟩ := a'
  obtain ⟨other, place⟩ := b
  obtain ⟨other', place'⟩ := b'
  obtain ⟨hheap, rfl : index = index'⟩ := ha
  obtain ⟨hother, rfl : place = place'⟩ := hb
  obtain rfl := (hρ.heap _ _).mp hheap
  obtain rfl := (hρ.heap _ _).mp hother
  simp only [Origin.mk.injEq]
  omega

/-- Two origins are known and the same on both sides, or on none. -/
theorem Origin.Renamed.same_eq (hρ : ρ.Shifts o) (a a' b b' : Option Origin) :
    Option.Rel (Origin.Renamed ρ) a a' → Option.Rel (Origin.Renamed ρ) b b' →
    (match a, b with
      | some a, some b => decide (a = b)
      | _, _ => false) = match a', b' with
      | some a, some b => decide (a = b)
      | _, _ => false := by
  intro ha hb
  cases ha with
  | none => rfl
  | some ha =>
    cases hb with
    | none => rfl
    | some hb => exact decide_eq_decide.mpr (ha.eq_iff hρ hb)

/-! ## Texts -/

section Texts

variable {records records' : Records} {value value' other other' : Value}

theorem Value.Renamed.textWith_eq (h : value.Renamed ρ value') {object object' : RecordId → String}
    (hobject : ∀ id id', ρ.record id id' → object id = object' id') :
    value.textWith object = value'.textWith object' := by
  cases h with
  | basic hbasic => exact hbasic.textWith_eq _ _
  | function hf => exact congrArg ("function " ++ ·) hf.name_eq
  | shape layout _ => rfl
  | record hid => exact hobject _ _ hid

/-- Names and values in slot order have the same texts. -/
theorem Record.Renamed.map_entries_eq {record record' : Record} (h : record.Renamed ρ record')
    {object object' : RecordId → String}
    (hobject : ∀ id id', ρ.record id id' → object id = object' id') :
    record.entries.map (fun entry ↦ entry.1 ++ ": " ++ entry.2.textWith object) =
      record'.entries.map (fun entry ↦ entry.1 ++ ": " ++ entry.2.textWith object') := by
  unfold Record.entries
  rw [h.shape]
  refine List.map_zip_congr (by simpa using h.fields.size_eq)
    fun name index value value' hv hv' ↦ ?_
  rw [Array.getElem?_toList] at hv hv'
  have hvalue := h.fields index
  rw [hv, hv'] at hvalue
  cases hvalue with
  | some hvalue => exact congrArg (name ++ ": " ++ ·) (hvalue.textWith_eq hobject)

theorem Records.Tracks.objectText_eq (h : records.Tracks o ρ records') (hρ : ρ.Shifts o)
    (depth : Nat) {id id' : RecordId} (hid : ρ.record id id') :
    records.objectText depth id = records'.objectText depth id' := by
  induction depth generalizing id id' with
  | zero => rfl
  | succ depth ih =>
    rw [Records.objectText_succ, Records.objectText_succ]
    have hrecord := h.get? hρ hid
    generalize records.get? id = a, records'.get? id' = b at hrecord
    cases hrecord with
    | some hrecord =>
      simp only [Option.map_some, Option.getD_some]
      rw [hrecord.map_entries_eq fun _ _ hid ↦ ih hid]
    | none => rfl

/-- Values that correspond look alike. -/
theorem Records.Tracks.resembles (h : records.Tracks o ρ records') (hρ : ρ.Shifts o)
    (hvalue : value.Renamed ρ value') : value.Resembles records records' value' := by
  cases hvalue with
  | basic hbasic => exact .basic hbasic
  | function hf => exact .function hf.name_eq
  | shape layout hid => exact ⟨rfl, rfl, by simp, by simp⟩
  | record hid => exact .record (h.objectText_eq hρ textDepth hid)

theorem Records.Tracks.notA_eq (h : records.Tracks o ρ records') (hρ : ρ.Shifts o)
    (hvalue : value.Renamed ρ value') (expected : String) :
    Failure.notA expected records value = Failure.notA expected records' value' :=
  (h.resembles hρ hvalue).notA_eq expected

end Texts

/-! ## Identity -/

section Identity

variable {records records' : Records} {value value' other other' : Value}

theorem Records.Tracks.sameObject_eq (h : records.Tracks o ρ records') (hρ : ρ.Shifts o)
    {a a' b b' : RecordId} (ha : ρ.record a a') (hb : ρ.record b b') :
    records.sameObject a b = records'.sameObject a' b' := by
  unfold Records.sameObject
  rw [decide_eq_decide.mpr (hρ.record_iff ha hb)]
  exact congrArg (_ || ·)
    (Origin.Renamed.same_eq hρ _ _ _ _ (h.origin? hρ ha) (h.origin? hρ hb))

theorem Value.IsBasic.same_renamed (h : value.IsBasic) (hother : other.Renamed ρ other')
    (records records' : Records) :
    value.same records other = value.same records' other' ∧
      other.same records value = other'.same records' value := by
  cases hother with
  | basic hbasic => exact ⟨h.same_eq records records' _, hbasic.same_eq records records' _⟩
  | _ =>
    cases value with
    | function _ | shape _ _ | record _ => exact h.elim
    | _ => exact ⟨rfl, rfl⟩

/-- Two values are the same on both sides, or on none. -/
theorem Records.Tracks.same_eq (h : records.Tracks o ρ records') (hρ : ρ.Shifts o)
    (hvalue : value.Renamed ρ value') (hother : other.Renamed ρ other') :
    value.same records other = value'.same records' other' := by
  cases hvalue with
  | basic hbasic => exact (hbasic.same_renamed hother records records').1
  | function hf =>
    cases hother with
    | basic hbasic => exact (hbasic.same_renamed (.function hf) records records').2
    | function hg => exact decide_eq_decide.mpr (hf.id_eq_iff hρ hg)
    | shape _ _ | record _ => rfl
  | shape layout hid =>
    cases hother with
    | basic hbasic => exact (hbasic.same_renamed (.shape layout hid) records records').2
    | shape layout' hid' => exact decide_eq_decide.mpr (hρ.id_iff hid hid')
    | function _ | record _ => rfl
  | record hid =>
    cases hother with
    | basic hbasic => exact (hbasic.same_renamed (.record hid) records records').2
    | record hid' => exact h.sameObject_eq hρ hid hid'
    | function _ | shape _ _ => rfl

/-- A call of a built-in function comes to the same in both runs. -/
theorem Records.Tracks.builtin_eq (h : records.Tracks o ρ records') (hρ : ρ.Shifts o)
    (op : Builtin) {args args' : List Value} (hargs : List.Forall₂ (Value.Renamed ρ) args args') :
    op.call records args = op.call records' args' := by
  refine op.call_eq hargs.length_eq (fun index value value' hvalue hvalue' ↦ ?_) ?_
  · have heach := Array.Corresponds.of_lists hargs index
    rw [List.getElem?_toArray, List.getElem?_toArray, hvalue, hvalue'] at heach
    cases heach with
    | some hrenamed => exact h.resembles hρ hrenamed
  · rintro - a b a' b' rfl rfl
    cases hargs with
    | cons ha hrest =>
      cases hrest with
      | cons hb _ => exact h.same_eq hρ ha hb

end Identity

end TandemScript
