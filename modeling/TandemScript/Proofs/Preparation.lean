import TandemScript.Proofs.TrackedRun

/-!
# Preparing a dictionary

The host may register values before it runs a program, and it may have run machines before. No
program can tell: what a run prints, and how it ends, is the same however the dictionary was
prepared. Two prepared runs are compared by way of the run from a fresh state, which both of them
go alongside.
-/

namespace TandemScript

variable {o : Offsets} {ρ ρ₁ ρ₂ : Renaming} {script : Script} {config : Config}
  {st st' st₁ st₂ : RunState}

/-! ## Prepared states -/

namespace Dictionary

variable {dict : Dictionary} {value : Value}

theorem Registered.undefined (h : dict.Registered) : dict.get? 0 = some .undefined := by
  induction h with
  | new => rfl
  | @intern dict dict' value word _ hword ih => exact ((intern_grows value).ok hword).get? ih

theorem Registered.push (h : dict.Registered) (hnew : dict.indexOf? value = none)
    (hroom : dict.size < indexBound) : Registered ⟨dict.entries.push value⟩ := by
  obtain ⟨word, hword⟩ := Word.exists_entry? hroom
  exact .intern h (intern_of_new hnew hword)

end Dictionary

/-- How many functions and shapes, records and heaps there are in a state. -/
def RunState.offsets (st : RunState) : Offsets where
  ids := st.nextId - Builtin.all.length
  records := st.records.cells.size
  heaps := st.heapCount

/-- A fresh state but for values that were registered, and for heaps that were made before. -/
structure RunState.IsPrepared (config : Config) (st : RunState) : Prop where
  config : st.config = config
  globals : st.globals = .initial
  output : st.output = ""
  depth : st.depth = 0
  nextId : Builtin.all.length ≤ st.nextId
  registered : st.dict.Registered
  known : ∀ value ∈ st.dict.entries, value.IsForeign st.offsets

/-! ## Alongside a fresh state -/

/-- The renaming that shifts all numbers, and knows the undefined value only. -/
def Renaming.shift (o : Offsets) : Renaming where
  entry index index' := index = 0 ∧ index' = 0
  id id id' := Builtin.all.length ≤ id ∧ id' = id + o.ids
  record id id' := id' = id + o.records
  heap heap heap' := heap' = heap + o.heaps

theorem Renaming.shift_shifts (o : Offsets) : (Renaming.shift o).Shifts o :=
  ⟨fun _ _ ↦ Iff.rfl, fun _ _ ↦ Iff.rfl, fun _ _ ↦ Iff.rfl⟩

theorem Bindings.initial_renamed (ρ : Renaming) : Bindings.initial.Renamed ρ .initial := by
  intro name
  cases hvalue : Bindings.initial.get? name with
  | none => exact .none
  | some value =>
    refine .some ?_
    rcases List.mem_append.mp (Bindings.mem_of_find? hvalue) with hmem | hmem
    · obtain ⟨op, -, hop⟩ := List.mem_map.mp hmem
      obtain ⟨-, rfl⟩ := Prod.mk.inj hop
      exact .function (.builtin op)
    · obtain ⟨-, rfl⟩ := Prod.mk.inj (List.mem_singleton.mp hmem)
      exact .basic trivial

theorem Dictionary.new_tracks {dict : Dictionary} (hregistered : dict.Registered)
    (hknown : ∀ value ∈ dict.entries, value.IsForeign o) :
    Dictionary.new.Tracks o (.shift o) dict where
  shifts := Renaming.shift_shifts o
  renamed := by
    rintro _ _ ⟨rfl, rfl⟩
    exact ⟨.undefined, .undefined, rfl, hregistered.undefined, .basic trivial⟩
  total index hindex := ⟨0, Nat.lt_one_iff.mp hindex, rfl⟩
  unique :=
    ⟨fun _ _ _ h h' ↦ h.1.trans h'.1.symm, fun _ _ _ h h' ↦ h.2.trans h'.2.symm⟩
  undefined := ⟨rfl, rfl⟩
  distinct := hregistered.isDistinct
  foreign _ value hvalue := .inr (hknown value (Array.mem_of_getElem? hvalue))

/-- A fresh state holds the same as a prepared one. -/
theorem RunState.IsPrepared.tracks (h : st.IsPrepared config) :
    (RunState.new config).Tracks st.offsets (.shift st.offsets) st where
  pool :=
    { dict := Dictionary.new_tracks h.registered h.known
      nextId := (Nat.add_sub_cancel' h.nextId).symm
      builtins := Nat.le_refl _ }
  config := h.config.symm
  globals := by
    rw [h.globals]
    exact Bindings.initial_renamed _
  records := by
    refine ⟨(Nat.zero_add _).symm, fun id ↦ ?_⟩
    have hnone : st.records.cells[id + st.offsets.records]? = none :=
      Array.getElem?_eq_none (Nat.le_add_left _ _)
    rw [hnone]
    exact .none
  output := h.output.symm
  heaps := (Nat.zero_add _).symm
  depth := h.depth.symm

/-! ## Between two prepared states -/

/-- Two states hold the same, up to the renaming. -/
structure RunState.Renamed (ρ : Renaming) (st st' : RunState) : Prop where
  dict : st.dict.Renamed ρ st'.dict
  globals : st.globals.Renamed ρ st'.globals
  records : st.records.Renamed ρ st'.records
  output : st.output = st'.output

theorem RunState.Tracks.renamed (h : st.Tracks o ρ st') : st.Renamed ρ st' :=
  ⟨h.dict.renamed, h.globals, h.records.renamed h.shifts, h.output⟩

theorem RunState.Renamed.join (h₁ : st.Renamed ρ₁ st₁) (h₂ : st.Renamed ρ₂ st₂) :
    st₁.Renamed (ρ₁.join ρ₂) st₂ :=
  ⟨h₁.dict.join h₂.dict, h₁.globals.join h₂.globals, h₁.records.join h₂.records,
    h₁.output.symm.trans h₂.output⟩

theorem biUnique_of_add {R : Nat → Nat → Prop} {count : Nat} (h : ∀ i j, R i j → j = i + count) :
    Relator.BiUnique R :=
  ⟨fun _ _ _ hik hjk ↦ Nat.add_right_cancel ((h _ _ hik).symm.trans (h _ _ hjk)),
    fun _ _ _ hij hik ↦ (h _ _ hij).trans (h _ _ hik).symm⟩

theorem Dictionary.Tracks.isOneToOne {dict dict' : Dictionary} (h : dict.Tracks o ρ dict') :
    ρ.IsOneToOne where
  entry := h.unique
  id := biUnique_of_add fun _ _ hid ↦ ((h.shifts.id _ _).mp hid).2
  record := biUnique_of_add fun _ _ hid ↦ (h.shifts.record _ _).mp hid
  heap := biUnique_of_add fun _ _ hid ↦ (h.shifts.heap _ _).mp hid

/-- From a prepared state a run goes alongside the run from a fresh one. -/
theorem RunState.IsPrepared.alongside (hshort : script.IsShort) (h : st.IsPrepared config)
    (steps : Nat) (hroom : (finalState (script.runOn .machine steps st)).dict.size < indexBound) :
    ∃ ρ : Renaming, ρ.IsOneToOne ∧ SameEnd (RunState.Renamed ρ) (Value.Renamed ρ)
      (script.runOn .machine steps (.new config)) (script.runOn .machine steps st) := by
  obtain ⟨ρ, -, hend⟩ := Script.runOn_alongside hshort h.tracks steps hroom
  refine ⟨ρ, ?_, hend.mono (fun _ _ h ↦ h.renamed) fun _ _ h ↦ h⟩
  rcases hend.cases with ⟨-, -, fresh, st', -, -, -, htracks⟩ | ⟨-, fresh, st', -, -, htracks⟩
  · exact htracks.dict.isOneToOne
  · exact htracks.dict.isOneToOne

/-- Two runs that end like a third one end alike. -/
theorem SameEnd.join {ε σ τ υ α β γ : Type} {S : σ → τ → Prop} {S' : σ → υ → Prop}
    {T : τ → υ → Prop} {R : α → β → Prop} {R' : α → γ → Prop} {Q : β → γ → Prop}
    {x : EStateM.Result ε σ α} {y : EStateM.Result ε τ β} {z : EStateM.Result ε υ γ}
    (hy : SameEnd S R x y) (hz : SameEnd S' R' x z) (hT : ∀ s t u, S s t → S' s u → T t u)
    (hQ : ∀ a b c, R a b → R' a c → Q b c) : SameEnd T Q y z := by
  rcases hy.cases with ⟨a, b, s, t, rfl, rfl, hR, hS⟩ | ⟨e, s, t, rfl, rfl, hS⟩
  · rcases hz.cases with ⟨_, c, _, u, hx, rfl, hR', hS'⟩ | ⟨_, _, _, hx, -⟩
    · obtain ⟨rfl, rfl⟩ := EStateM.Result.ok.inj hx
      exact ⟨hQ _ _ _ hR hR', hT _ _ _ hS hS'⟩
    · cases hx
  · rcases hz.cases with ⟨_, _, _, _, hx, -⟩ | ⟨_, _, u, hx, rfl, hS'⟩
    · cases hx
    · obtain ⟨rfl, rfl⟩ := EStateM.Result.error.inj hx
      exact ⟨rfl, hT _ _ _ hS hS'⟩

/-- However two dictionaries were prepared, and however many heaps and records were made before, the
runs of a program print the same text, as long as no dictionary gets full. Both fail with the same
failure and the same notes about it, or both give values that are the same up to a renaming of what
was created. -/
theorem prepared_runs_alike (hshort : script.IsShort) (h : st.IsPrepared config)
    (h' : st'.IsPrepared config) (steps : Nat)
    (hroom : (finalState (script.runOn .machine steps st)).dict.size < indexBound)
    (hroom' : (finalState (script.runOn .machine steps st')).dict.size < indexBound) :
    ∃ ρ : Renaming, ρ.IsOneToOne ∧ SameEnd (RunState.Renamed ρ) (Value.Renamed ρ)
      (script.runOn .machine steps st) (script.runOn .machine steps st') := by
  obtain ⟨ρ₁, hρ₁, hend₁⟩ := h.alongside hshort steps hroom
  obtain ⟨ρ₂, hρ₂, hend₂⟩ := h'.alongside hshort steps hroom'
  exact ⟨ρ₁.join ρ₂, hρ₁.join hρ₂,
    hend₁.join hend₂ (fun _ _ _ h h' ↦ h.join h') fun _ _ _ h h' ↦ h.join h'⟩

/-- A program that makes an object, prints one of its fields and returns it. -/
def labelledObject : Script :=
  .ofList [
    .lambda (some "label") ["n"] [
      .returning (.objectOf [("kind", .str "label"), ("value", .read "n")])],
    .declare "made" (.applyGlobal "label" [.applyGlobal "-" [.int 4, .int 7]]),
    .applyGlobal "print" [.get (.read "made") "kind"],
    .returning (.read "made")]

/-- A text and numbers of the program were registered, and a record. -/
def registeredConstants : RunState :=
  { RunState.new {} with
    dict := ⟨#[.undefined, .str "label", .int 7, .int (-3), .record 0]⟩
    records := ⟨#[⟨⟨["value"]⟩, #[.int 7], none⟩]⟩ }

def labelShape : Shape := ⟨["kind", "value"]⟩

def labelFunction : Function := ⟨13, "label", .native (.host 0)⟩

/-- A shape and a function that are not those of the program were registered, after three heaps. -/
def registeredIdentities : RunState :=
  { RunState.new {} with
    dict := ⟨#[.undefined, .shape 12 labelShape, .function labelFunction, .global]⟩
    nextId := 14
    heapCount := 3 }

theorem registeredConstants_prepared : registeredConstants.IsPrepared {} where
  config := rfl
  globals := rfl
  output := rfl
  depth := rfl
  nextId := by decide
  registered := by
    have hstr : Dictionary.Registered ⟨#[.undefined, .str "label"]⟩ :=
      .push .new (by decide +kernel) (by decide)
    have hint : Dictionary.Registered ⟨#[.undefined, .str "label", .int 7]⟩ :=
      .push hstr (by decide +kernel) (by decide)
    have hnegative : Dictionary.Registered ⟨#[.undefined, .str "label", .int 7, .int (-3)]⟩ :=
      .push hint (by decide +kernel) (by decide)
    exact .push hnegative (by decide +kernel) (by decide)
  known := by simp [registeredConstants, Value.IsForeign, RunState.offsets]

theorem registeredIdentities_prepared : registeredIdentities.IsPrepared {} where
  config := rfl
  globals := rfl
  output := rfl
  depth := rfl
  nextId := by decide
  registered := by
    have hshape : Dictionary.Registered ⟨#[.undefined, .shape 12 labelShape]⟩ :=
      .push .new (by decide +kernel) (by decide)
    have hfunction :
        Dictionary.Registered ⟨#[.undefined, .shape 12 labelShape, .function labelFunction]⟩ :=
      .push hshape (by decide +kernel) (by decide)
    exact .push hfunction (by decide +kernel) (by decide)
  known := by
    simp [registeredIdentities, labelFunction, Value.IsForeign, RunState.offsets, Builtin.all]

/-- What a run printed that gave a record. -/
def printedForRecord : EStateM.Result Stop RunState Value → Option String
  | .ok (.record _) st => some st.output
  | _ => none

/-- Both runs print the same text, and make records that correspond. -/
theorem labelledObject_runs_alike : ∃ (ρ : Renaming) (id id' : RecordId) (st st' : RunState),
    labelledObject.runOn .machine 40 registeredConstants = .ok (.record id) st ∧
      labelledObject.runOn .machine 40 registeredIdentities = .ok (.record id') st' ∧
      ρ.IsOneToOne ∧ ρ.record id id' ∧ st.Renamed ρ st' ∧ st.output = "label\n" := by
  have hcheck : labelledObject.isAccepted none = true := by decide +kernel
  obtain ⟨main, pool, haccepted⟩ := Script.accepted_of_check hcheck {}
  have hroom : (finalState
      (labelledObject.runOn .machine 40 registeredConstants)).dict.size < indexBound := by
    decide +kernel
  have hroom' : (finalState
      (labelledObject.runOn .machine 40 registeredIdentities)).dict.size < indexBound := by
    decide +kernel
  obtain ⟨ρ, hρ, hend⟩ := prepared_runs_alike haccepted.isShort_script
    registeredConstants_prepared registeredIdentities_prepared 40 hroom hroom'
  have hprints : printedForRecord (labelledObject.runOn .machine 40 registeredConstants) =
      some "label\n" := by
    decide +kernel
  rcases hend.cases with ⟨value, value', st, st', hrun, hrun', hvalue, hst⟩ |
    ⟨stop, st, st', hrun, -⟩
  · rw [hrun] at hprints
    cases hvalue with
    | record hid =>
      exact ⟨ρ, _, _, st, st', hrun, hrun', hρ, hid, hst, Option.some.inj hprints⟩
    | basic hbasic =>
      cases value with
      | record _ => exact hbasic.elim
      | _ => cases hprints
    | function _ | shape _ _ => cases hprints
  · rw [hrun] at hprints
    cases hprints

end TandemScript
