import TandemScript.Proofs.Safety

/-!
# Stored values

The values that a run on the tree keeps: those of global names, of the variables of activations and
of the fields of records. A property that all of them have is a property of all values that are read
from there, and the operations that store a value with the property keep it for all of them. Each
operation of the evaluator has a rule that says what its outcomes are, so that a walk over the tree
only has to say which outcomes it allows.
-/

namespace TandemScript

theorem Array.mem_of_mem_modify {α : Type} {xs : Array α} {i : Nat} {f : α → α} {a : α}
    (h : a ∈ xs.modify i f) : a ∈ xs ∨ ∃ b ∈ xs, f b = a := by
  obtain ⟨j, hj⟩ := Array.mem_iff_getElem?.mp h
  rw [Array.getElem?_modify] at hj
  split at hj
  · obtain ⟨b, hb, hf⟩ := Option.map_eq_some_iff.mp hj
    exact .inr ⟨b, Array.mem_of_getElem? hb, hf⟩
  · exact .inl (Array.mem_of_getElem? hj)

/-- All values that are bound have a property. -/
def Bindings.All (P : Value → Prop) (bindings : Bindings) : Prop :=
  ∀ name value, bindings.get? name = some value → P value

namespace Bindings.All

variable {P : Value → Prop} {bindings : Bindings}

theorem empty : All P {} := by
  rintro name value ⟨⟩

theorem set (h : bindings.All P) (name : String) {value : Value} (hvalue : P value) :
    (bindings.set name value).All P := by
  intro other found hfound
  rw [get?_set] at hfound
  split at hfound
  · obtain rfl := Option.some.inj hfound
    exact hvalue
  · exact h other found hfound

theorem setAll (h : bindings.All P) {entries : List (String × Value)}
    (hentries : ∀ entry ∈ entries, P entry.2) : (bindings.setAll entries).All P := by
  unfold Bindings.setAll
  induction entries generalizing bindings with
  | nil => exact h
  | cons entry rest ih =>
    exact ih (h.set _ (hentries entry (List.mem_cons_self ..))) fun other hother ↦
      hentries other (List.mem_cons_of_mem _ hother)

theorem declareUndefined (h : bindings.All P) (hundefined : P .undefined) (names : List String) :
    (bindings.declareUndefined names).All P := by
  unfold Bindings.declareUndefined
  induction names generalizing bindings with
  | nil => exact h
  | cons name rest ih =>
    refine ih ?_
    simp only
    split
    · exact h
    · exact h.set name hundefined

theorem activation {receiver : Value} {args : List Value} (hundefined : P .undefined)
    (hreceiver : P receiver) (hargs : ∀ arg ∈ args, P arg) (params declared : List String) :
    (Bindings.activation receiver params args declared).All P := by
  refine ((empty.set "this" hreceiver).setAll fun entry hentry ↦ ?_).declareUndefined hundefined _
  exact hargs _ (List.of_mem_zip hentry).2

end Bindings.All

/-! ## Rules for operations -/

namespace Ensures

variable {α : Type} {x : Run α} {st : RunState} {Q : α → RunState → Prop}
  {E : Stop → RunState → Prop} {name : String} {value : Value}

/-- A note is only about failures. -/
theorem annotate {note : Failure → Failure}
    (h : Ensures x st Q fun stop st' ↦ E (stop.mapFailure note) st') :
    Ensures (Run.annotate note x) st Q E := by
  unfold Ensures at h ⊢
  unfold Run.annotate
  cases hresult : x st with
  | ok a st' =>
    rw [hresult] at h
    exact h
  | error stop st' =>
    rw [hresult] at h
    exact h

/-- A call is entered and left, or calls nest too deeply. -/
theorem insideCall
    (h : st.depth < st.config.nestingLimit → Ensures x { st with depth := st.depth + 1 }
      (fun a st' ↦ Q a { st' with depth := st'.depth - 1 })
      fun stop st' ↦ E stop { st' with depth := st'.depth - 1 })
    (hlimit : st.config.nestingLimit ≤ st.depth →
      E (.failed ⟨.exhausted .stack st.config.stackSize, {}⟩)
        { st with log := st.log.add (.depthLimit st.depth) }) :
    Ensures (Run.insideCall x) st Q E := by
  by_cases hdepth : st.depth < st.config.nestingLimit
  · have hinside := h hdepth
    unfold Ensures at hinside ⊢
    rw [Run.insideCall_of_lt x hdepth]
    cases hresult : x { st with depth := st.depth + 1 } with
    | ok a st' =>
      rw [hresult] at hinside
      exact hinside
    | error stop st' =>
      rw [hresult] at hinside
      exact hinside
  · have hle := Nat.le_of_not_lt hdepth
    exact .of_error (Run.insideCall_of_le x hle) (hlimit hle)

theorem writeVar {Q : Unit → RunState → Prop} {env : Env} {declares : Bool}
    (hbind : ∀ id, (if declares then env.head? else st.frames.owner? name env) = some id →
      Q () { st with frames := st.frames.bind id name value })
    (hnone : (if declares then env.head? else st.frames.owner? name env) = none →
      E (.failed ⟨.undefinedVariable name, {}⟩) st) :
    Ensures (Run.writeVar env name value declares) st Q E := by
  unfold Ensures
  rw [Run.writeVar_apply]
  cases howner : if declares then env.head? else st.frames.owner? name env with
  | some id => exact hbind id howner
  | none => exact hnone howner

theorem readField {Q : Value → RunState → Prop} {receiver : Value}
    (hvalue : ∀ value, st.readField receiver name = .ok value → Q value st)
    (hobject : E (.failed (.notA "object" st.records receiver)) st) :
    Ensures (Run.readField receiver name) st Q E := by
  unfold Ensures Run.readField
  cases receiver with
  | record id => exact hvalue _ rfl
  | global => exact hvalue _ rfl
  | _ => exact hobject

/-- A field of a record is written, or a global name. -/
theorem writeField {Q : Unit → RunState → Prop} {receiver : Value}
    (hslot : ∀ id slot, Q () { st with records := st.records.setSlot id slot value })
    (hglobal : Q () { st with globals := st.globals.set name value })
    (hfield : E (.failed ⟨.invalidField name, {}⟩) st)
    (hobject : E (.failed (.notA "object" st.records receiver)) st) :
    Ensures (Run.writeField receiver name value) st Q E := by
  unfold Ensures
  cases receiver with
  | record id =>
    rw [Run.writeField_record]
    cases (st.records.get? id).bind fun record ↦ record.shape.slot? name with
    | none => exact hfield
    | some slot => exact hslot id slot
  | global => exact hglobal
  | _ => exact hobject

theorem builtin {Q : Value → RunState → Prop} {op : Builtin} {receiver : Value}
    {args : List Value}
    (hvalue : ∀ value output, op.call st.records args = (.ok value, output) →
      Q value { st with output := st.output ++ output })
    (hfailure : ∀ failure output, op.call st.records args = (.error failure, output) →
      E (.failed failure) st) :
    Ensures (Native.call (.builtin op) receiver args) st Q E := by
  unfold Ensures
  rw [Native.call_builtin]
  cases hcall : op.call st.records args with
  | mk result output =>
    cases result with
    | ok value => exact hvalue value output hcall
    | error failure => exact hfailure failure output hcall

end Ensures

/-! ## Values that are kept -/

/-- The values of an object literal that belong to the last occurrence of a key. -/
theorem mem_of_mem_keepLast {keys : List String} {values : List Value} {value : Value}
    (h : value ∈ (values.zip (keepLast keys)).filterMap
      fun (value, keep) ↦ if keep then some value else none) : value ∈ values := by
  obtain ⟨⟨found, keep⟩, hmem, hfound⟩ := List.mem_filterMap.mp h
  have hsame : found = value := by
    simp only at hfound
    split at hfound
    · exact Option.some.inj hfound
    · cases hfound
  exact hsame ▸ (List.of_mem_zip hmem).1

/-- All values that the run keeps have a property. -/
structure RunState.Stores (P : Value → Prop) (st : RunState) : Prop where
  globals : st.globals.All P
  frames : ∀ bindings ∈ st.frames.cells, bindings.All P
  records : ∀ record ∈ st.records.cells, ∀ value ∈ record.fields, P value

namespace RunState.Stores

variable {P : Value → Prop} {st : RunState}

/-! ## Reading -/

theorem global (h : st.Stores P) (hundefined : P .undefined) (name : String) :
    P (st.global name) := by
  unfold RunState.global
  cases hglobal : st.globals.get? name with
  | none => exact hundefined
  | some value => exact h.globals name value hglobal

theorem lookup (h : st.Stores P) {env : Env} {name : String} {value : Value}
    (hlookup : st.frames.lookup? env name = some value) : P value := by
  obtain ⟨id, -, hvalue⟩ := Option.bind_eq_some_iff.mp hlookup
  obtain ⟨bindings, hbindings, hvalue⟩ := Option.bind_eq_some_iff.mp hvalue
  exact h.frames bindings (Array.mem_of_getElem? hbindings) name value hvalue

/-- A variable, or the global name where no activation has it. -/
theorem readVar (h : st.Stores P) (hundefined : P .undefined) (env : Env) (name : String) :
    ∃ value, Run.readVar env name st = .ok value st ∧ P value := by
  unfold Run.readVar
  cases hlookup : st.frames.lookup? env name with
  | none => exact ⟨_, rfl, h.global hundefined name⟩
  | some value => exact ⟨_, rfl, h.lookup hlookup⟩

theorem readField (h : st.Stores P) (hundefined : P .undefined) {receiver value : Value}
    {name : String} (hread : st.readField receiver name = .ok value) : P value := by
  unfold RunState.readField at hread
  cases receiver with
  | record id =>
    obtain rfl := Except.ok.inj hread
    cases hfield : st.records.field? id name with
    | none => exact hundefined
    | some value =>
      obtain ⟨record, hrecord, hvalue⟩ := Option.bind_eq_some_iff.mp hfield
      obtain ⟨slot, -, hvalue⟩ := Option.bind_eq_some_iff.mp hvalue
      exact h.records record (Array.mem_of_getElem? hrecord) value (Array.mem_of_getElem? hvalue)
  | global =>
    obtain rfl := Except.ok.inj hread
    exact h.global hundefined name
  | _ => cases hread

/-! ## Writing -/

theorem setGlobal (h : st.Stores P) (name : String) {value : Value} (hvalue : P value) :
    Stores P { st with globals := st.globals.set name value } :=
  { h with globals := h.globals.set name hvalue }

theorem bind (h : st.Stores P) (id : FrameId) (name : String) {value : Value} (hvalue : P value) :
    Stores P { st with frames := st.frames.bind id name value } := by
  refine { h with frames := fun bindings hbindings ↦ ?_ }
  have hmodify : bindings ∈ st.frames.cells.modify id (·.set name value) := hbindings
  rcases Array.mem_of_mem_modify hmodify with hold | ⟨old, hold, rfl⟩
  · exact h.frames bindings hold
  · exact (h.frames old hold).set name hvalue

theorem setSlot (h : st.Stores P) (id : RecordId) (slot : Nat) {value : Value} (hvalue : P value) :
    Stores P { st with records := st.records.setSlot id slot value } := by
  refine { h with records := fun record hrecord found hfound ↦ ?_ }
  have hmodify : record ∈ st.records.cells.modify id (·.setSlot slot value) := hrecord
  rcases Array.mem_of_mem_modify hmodify with hold | ⟨old, hold, rfl⟩
  · exact h.records record hold found hfound
  · rcases Array.mem_or_eq_of_mem_setIfInBounds hfound with hkept | rfl
    · exact h.records old hold found hkept
    · exact hvalue

theorem addFrame (h : st.Stores P) {bindings : Bindings} (hbindings : bindings.All P) :
    Stores P { st with frames := (st.frames.add bindings).2 } := by
  refine { h with frames := fun other hother ↦ ?_ }
  rcases Array.mem_push.mp hother with hold | rfl
  · exact h.frames other hold
  · exact hbindings

theorem addRecord (h : st.Stores P) {record : Record} (hrecord : ∀ value ∈ record.fields, P value) :
    Stores P { st with records := (st.records.add record).2 } := by
  refine { h with records := fun other hother ↦ ?_ }
  rcases Array.mem_push.mp hother with hold | rfl
  · exact h.records other hold
  · exact hrecord

/-- The object of a literal has values of the literal. -/
theorem objectLiteral (h : st.Stores P) (keys : List String) {values : List Value}
    (hvalues : ∀ value ∈ values, P value) : ∃ id records,
      Run.objectLiteral keys values st = .ok (.record id) { st with records } ∧
        Stores P { st with records } := by
  refine ⟨_, _, rfl, h.addRecord fun value hvalue ↦ ?_⟩
  exact hvalues value (mem_of_mem_keepLast (Array.mem_toList_iff.mpr hvalue))

/-- The state before anything has run has the built-in functions and the global environment. -/
theorem new (config : Config) (level : Option Level)
    (hbuiltin : ∀ op : Builtin, P (.function op.function)) (hglobal : P .global) :
    (RunState.new config level).Stores P where
  globals name value h := by
    rcases Bindings.get?_initial h with ⟨op, rfl⟩ | rfl
    · exact hbuiltin op
    · exact hglobal
  frames bindings h := by simp [RunState.new] at h
  records record h := by simp [RunState.new] at h

end RunState.Stores

end TandemScript
