import Mathlib.Data.Fintype.Card
import TandemScript.Proofs.Evolution
import TandemScript.Proofs.Program
import TandemScript.Proofs.Renaming
import TandemScript.Proofs.RoundTrip

/-!
# Dictionaries that were filled before

A run that starts with an empty dictionary is followed by one whose dictionary holds other values
already. What the first run creates, the second one creates under numbers that are shifted by what
was there before. A constant that the second run finds among the earlier values is one that the
first run adds, because nothing that is created later can be an earlier value.
-/

namespace TandemScript

variable {ε σ τ α β α' β' : Type}

/-! ## Two computations side by side -/

/-- Both computations have results that correspond, or both fail for the same reason. -/
def SameEnd (S : σ → τ → Prop) (R : α → β → Prop) :
    EStateM.Result ε σ α → EStateM.Result ε τ β → Prop
  | .ok a s, .ok b t => R a b ∧ S s t
  | .error e s, .error e' t => e = e' ∧ S s t
  | _, _ => False

/-- From states that correspond, both computations end alike. -/
def Parallel (S : σ → τ → Prop) (R : α → β → Prop) (x : EStateM ε σ α) (y : EStateM ε τ β) :
    Prop :=
  ∀ s t, S s t → SameEnd S R (x s) (y t)

/-- From two states, both computations end alike under a renaming that says more than the one at
the beginning, unless the dictionary of the second one is full in the end. -/
def AlongsideAt (dict : σ → Dictionary) (S : Renaming → σ → σ → Prop) (ρ : Renaming)
    (R : Renaming → α → β → Prop) (x : EStateM ε σ α) (y : EStateM ε σ β) (s t : σ) : Prop :=
  (dict (finalState (y t))).size < indexBound →
    ∃ ρ', ρ.Extends ρ' ∧ SameEnd (S ρ') (R ρ') (x s) (y t)

/-- The computations do so from all states that correspond under the renaming. -/
def Alongside (dict : σ → Dictionary) (S : Renaming → σ → σ → Prop) (ρ : Renaming)
    (R : Renaming → α → β → Prop) (x : EStateM ε σ α) (y : EStateM ε σ β) : Prop :=
  ∀ s t, S ρ s t → AlongsideAt dict S ρ R x y s t

/-- Two values that correspond, or the same complaint. -/
inductive Except.Alike (R : α → β → Prop) : Except ε α → Except ε β → Prop
  | ok {a : α} {b : β} : R a b → Alike R (.ok a) (.ok b)
  | error (e : ε) : Alike R (.error e) (.error e)

theorem Except.Alike.of_eq {R : α → β → Prop} {e e' : ε} (h : e = e') :
    Except.Alike R (.error e : Except ε α) (.error e') :=
  h ▸ .error e

theorem Except.Alike.bind {R : α → β → Prop} {Q : α' → β' → Prop} {x : Except ε α}
    {y : Except ε β} {f : α → Except ε α'} {g : β → Except ε β'} (h : Except.Alike R x y)
    (hf : ∀ a b, R a b → Except.Alike Q (f a) (g b)) : Except.Alike Q (x >>= f) (y >>= g) := by
  cases h with
  | ok hab => exact hf _ _ hab
  | error e => exact .error e

section Results

variable {S : σ → τ → Prop} {R : α → β → Prop} {x : EStateM.Result ε σ α}
  {y : EStateM.Result ε τ β}

theorem SameEnd.mono {S' : σ → τ → Prop} {R' : α → β → Prop} (h : SameEnd S R x y)
    (hS : ∀ s t, S s t → S' s t) (hR : ∀ a b, R a b → R' a b) : SameEnd S' R' x y := by
  cases x <;> cases y
  · exact ⟨hR _ _ h.1, hS _ _ h.2⟩
  · exact h.elim
  · exact h.elim
  · exact ⟨h.1, hS _ _ h.2⟩

/-- Results that correspond come from results or from failures. -/
theorem SameEnd.cases (h : SameEnd S R x y) :
    (∃ a b s t, x = .ok a s ∧ y = .ok b t ∧ R a b ∧ S s t) ∨
      ∃ e s t, x = .error e s ∧ y = .error e t ∧ S s t := by
  cases x <;> cases y
  · exact .inl ⟨_, _, _, _, rfl, rfl, h⟩
  · exact h.elim
  · exact h.elim
  · obtain ⟨rfl, hS⟩ := h
    exact .inr ⟨_, _, _, rfl, rfl, hS⟩

end Results

namespace Parallel

variable {S : σ → τ → Prop} {R : α → β → Prop} {Q : α' → β' → Prop} {x : EStateM ε σ α}
  {y : EStateM ε τ β}

theorem pure {a : α} {b : β} (h : R a b) :
    Parallel S R (Pure.pure a : EStateM ε σ α) (Pure.pure b : EStateM ε τ β) :=
  fun _ _ hS ↦ ⟨h, hS⟩

theorem bind {f : α → EStateM ε σ α'} {g : β → EStateM ε τ β'} (h : Parallel S R x y)
    (hf : ∀ a b, R a b → Parallel S Q (f a) (g b)) : Parallel S Q (x >>= f) (y >>= g) := by
  intro s t hS
  rcases (h s t hS).cases with ⟨a, b, s', t', hx, hy, hR, hS'⟩ | ⟨e, s', t', hx, hy, hS'⟩
  · rw [bind_of_ok hx, bind_of_ok hy]
    exact hf a b hR s' t' hS'
  · rw [bind_of_error hx, bind_of_error hy]
    exact ⟨rfl, hS'⟩

theorem modify {f : σ → σ} {g : τ → τ} (h : ∀ s t, S s t → S (f s) (g t)) :
    Parallel S (fun _ _ ↦ True) (modify f : EStateM ε σ PUnit) (modify g : EStateM ε τ PUnit) :=
  fun s t hS ↦ ⟨trivial, h s t hS⟩

theorem get {S : σ → τ → Prop} : Parallel S S (MonadState.get : EStateM ε σ σ)
    (MonadState.get : EStateM ε τ τ) :=
  fun _ _ hS ↦ ⟨hS, hS⟩

theorem modifyGet {f : σ → α × σ} {g : τ → β × τ}
    (h : ∀ s t, S s t → R (f s).1 (g t).1 ∧ S (f s).2 (g t).2) :
    Parallel S R (modifyGet f : EStateM ε σ α) (modifyGet g : EStateM ε τ β) :=
  h

theorem ofExcept {a : Except ε α} {b : Except ε β}
    (h : Except.Alike R a b) :
    Parallel S R (MonadExcept.ofExcept a : EStateM ε σ α)
      (MonadExcept.ofExcept b : EStateM ε τ β) := by
  intro s t hS
  cases h with
  | ok hab => exact ⟨hab, hS⟩
  | error e => exact ⟨rfl, hS⟩

end Parallel

section Sequences

variable {dict : σ → Dictionary} {S : Renaming → σ → σ → Prop} {ρ : Renaming}
  {R : Renaming → α → β → Prop} {Q : Renaming → α' → β' → Prop} {x : EStateM ε σ α}
  {y : EStateM ε σ β} {f : α → EStateM ε σ α'} {g : β → EStateM ε σ β'}

theorem AlongsideAt.bind {s t : σ} (h : AlongsideAt dict S ρ R x y s t)
    (hg : ∀ b, Grows dict (g b))
    (hf : ∀ ρ' a b s' t', ρ.Extends ρ' → x s = .ok a s' → R ρ' a b → S ρ' s' t' →
      AlongsideAt dict S ρ' Q (f a) (g b) s' t') :
    AlongsideAt dict S ρ Q (x >>= f) (y >>= g) s t := by
  intro hroom
  have hfirst : (dict (finalState (y t))).size < indexBound := by
    cases hy : y t with
    | ok b t' =>
      rw [bind_of_ok hy] at hroom
      exact Nat.lt_of_le_of_lt (hg b t').size_le hroom
    | error e t' =>
      rw [bind_of_error hy] at hroom
      exact hroom
  obtain ⟨ρ', hρ, hend⟩ := h hfirst
  rcases hend.cases with ⟨a, b, s', t', hx, hy, hR, hS⟩ | ⟨e, s', t', hx, hy, hS⟩
  · rw [bind_of_ok hy] at hroom
    obtain ⟨ρ'', hρ', hend'⟩ := hf ρ' a b s' t' hρ hx hR hS hroom
    rw [bind_of_ok hx, bind_of_ok hy]
    exact ⟨ρ'', hρ.trans hρ', hend'⟩
  · rw [bind_of_error hx, bind_of_error hy]
    exact ⟨ρ', hρ, rfl, hS⟩

namespace Alongside

theorem of_parallel (h : Parallel (S ρ) (R ρ) x y) : Alongside dict S ρ R x y :=
  fun s t hS _ ↦ ⟨ρ, .refl ρ, h s t hS⟩

theorem pure {a : α} {b : β} (h : R ρ a b) :
    Alongside dict S ρ R (Pure.pure a : EStateM ε σ α) (Pure.pure b) :=
  of_parallel (.pure h)

theorem bind (h : Alongside dict S ρ R x y) (hg : ∀ b, Grows dict (g b))
    (hf : ∀ ρ' a b, ρ.Extends ρ' → R ρ' a b → Alongside dict S ρ' Q (f a) (g b)) :
    Alongside dict S ρ Q (x >>= f) (y >>= g) :=
  fun s t hS ↦ (h s t hS).bind hg fun ρ' a b _ _ hρ _ hR hS' ↦ hf ρ' a b hρ hR _ _ hS'

/-- Only the result is changed behind. -/
theorem map {f : α → α'} {g : β → β'} (h : Alongside dict S ρ R x y)
    (hf : ∀ ρ' a b, ρ.Extends ρ' → R ρ' a b → Q ρ' (f a) (g b)) :
    Alongside dict S ρ Q (x >>= fun a ↦ Pure.pure (f a)) (y >>= fun b ↦ Pure.pure (g b)) :=
  .bind h (fun _ ↦ .pure _) fun ρ' a b hρ hR ↦ .pure (hf ρ' a b hρ hR)

/-- A computation that adds no entries comes first. -/
theorem after {R : α → β → Prop} (h : Parallel (S ρ) R x y)
    (hf : ∀ a b, R a b → Alongside dict S ρ Q (f a) (g b)) :
    Alongside dict S ρ Q (x >>= f) (y >>= g) := by
  intro s t hS hroom
  rcases (h s t hS).cases with ⟨a, b, s', t', hx, hy, hR, hS'⟩ | ⟨e, s', t', hx, hy, hS'⟩
  · rw [bind_of_ok hy] at hroom
    rw [bind_of_ok hx, bind_of_ok hy]
    exact hf a b hR s' t' hS' hroom
  · rw [bind_of_error hx, bind_of_error hy]
    exact ⟨ρ, .refl ρ, rfl, hS'⟩

end Alongside

end Sequences

/-! ## Computations on another state -/

/-- What a computation on another state comes to, where a state is put together from its last
one. -/
def resultWithin {ε' : Type} (put : τ → σ) (fail : ε → ε') :
    EStateM.Result ε τ α → EStateM.Result ε' σ α
  | .ok a t => .ok a (put t)
  | .error e t => .error (fail e) (put t)

/-- The second computation is the first one on a part of its state. -/
def Lifts {ε' : Type} (part : σ → τ) (put : σ → τ → σ) (fail : ε → ε') (x : EStateM ε τ α)
    (lifted : EStateM ε' σ α) : Prop :=
  ∀ s, lifted s = resultWithin (put s) fail (x (part s))

section Parts

variable {ε' : Type} {put put' : τ → σ} {fail : ε → ε'} {x : EStateM ε τ α} {y : EStateM ε τ β}
  {lifted : EStateM ε' σ α} {lifted' : EStateM ε' σ β} {s s' : σ} {t t' : τ}

theorem SameEnd.lift {S : τ → τ → Prop} {S' : σ → σ → Prop} {R : α → β → Prop}
    (h : SameEnd S R (x t) (y t')) (hx : lifted s = resultWithin put fail (x t))
    (hy : lifted' s' = resultWithin put' fail (y t'))
    (hput : ∀ u u', S u u' → S' (put u) (put' u')) : SameEnd S' R (lifted s) (lifted' s') := by
  rw [hx, hy]
  rcases h.cases with ⟨a, b, u, u', ha, hb, hR, hS⟩ | ⟨e, u, u', ha, hb, hS⟩
  · rw [ha, hb]
    exact ⟨hR, hput _ _ hS⟩
  · rw [ha, hb]
    exact ⟨rfl, hput _ _ hS⟩

theorem AlongsideAt.lift {dict : τ → Dictionary} {dict' : σ → Dictionary}
    {S : Renaming → τ → τ → Prop} {S' : Renaming → σ → σ → Prop} {ρ : Renaming}
    {R : Renaming → α → β → Prop} (h : AlongsideAt dict S ρ R x y t t')
    (hx : lifted s = resultWithin put fail (x t)) (hy : lifted' s' = resultWithin put' fail (y t'))
    (hdict : ∀ u, dict' (put' u) = dict u)
    (hput : ∀ ρ' u u', ρ.Extends ρ' → S ρ' u u' → S' ρ' (put u) (put' u')) :
    AlongsideAt dict' S' ρ R lifted lifted' s s' := by
  intro hroom
  have hpart : (dict (finalState (y t'))).size < indexBound := by
    rw [hy] at hroom
    cases hb : y t' with
    | ok b u =>
      rw [hb] at hroom
      exact hdict u ▸ hroom
    | error e u =>
      rw [hb] at hroom
      exact hdict u ▸ hroom
  obtain ⟨ρ', hρ, hend⟩ := h hpart
  exact ⟨ρ', hρ, hend.lift hx hy fun u u' hS ↦ hput ρ' u u' hρ hS⟩

end Parts

/-! ## What was there before -/

/-- How many functions and shapes, records and heaps there were before. -/
structure Offsets where
  ids : Nat
  records : Nat
  heaps : Nat

/-- The renaming shifts all numbers but those of the built-in functions. -/
structure Renaming.Shifts (ρ : Renaming) (o : Offsets) : Prop where
  id : ∀ id id', ρ.id id id' ↔ Builtin.all.length ≤ id ∧ id' = id + o.ids
  record : ∀ id id', ρ.record id id' ↔ id' = id + o.records
  heap : ∀ heap heap', ρ.heap heap heap' ↔ heap' = heap + o.heaps

/-- A value from before. -/
def Value.IsForeign (o : Offsets) : Value → Prop
  | .function f => (∃ op : Builtin, f = op.function) ∨
    Builtin.all.length ≤ f.id ∧ f.id < Builtin.all.length + o.ids
  | .shape id _ => id < Builtin.all.length + o.ids
  | .record id => id < o.records
  | _ => True

section Identities

variable {o : Offsets} {ρ : Renaming}

theorem Renaming.Shifts.id_iff (hρ : ρ.Shifts o) {i i' j j' : Nat} (hi : ρ.id i i')
    (hj : ρ.id j j') : i = j ↔ i' = j' := by
  obtain ⟨-, rfl⟩ := (hρ.id _ _).mp hi
  obtain ⟨-, rfl⟩ := (hρ.id _ _).mp hj
  exact Nat.add_right_cancel_iff.symm

theorem Renaming.Shifts.record_iff (hρ : ρ.Shifts o) {i i' j j' : RecordId} (hi : ρ.record i i')
    (hj : ρ.record j j') : i = j ↔ i' = j' := by
  obtain rfl := (hρ.record _ _).mp hi
  obtain rfl := (hρ.record _ _).mp hj
  exact Nat.add_right_cancel_iff.symm

/-- One function on both sides has the same number as another one on both sides, or on none. -/
theorem Function.Renamed.id_eq_iff (hρ : ρ.Shifts o) {f f' g g' : Function}
    (hf : f.Renamed ρ f') (hg : g.Renamed ρ g') : f.id = g.id ↔ f'.id = g'.id := by
  cases hf with
  | builtin op =>
    have hop := op.id_lt
    cases hg with
    | builtin op' => exact Iff.rfl
    | compiled hid _ =>
      obtain ⟨hle, rfl⟩ := (hρ.id _ _).mp hid
      simp only
      omega
  | compiled hid _ =>
    cases hg with
    | builtin op =>
      obtain ⟨hle, rfl⟩ := (hρ.id _ _).mp hid
      have hop := op.id_lt
      simp only
      omega
    | compiled hid' _ => exact hρ.id_iff hid hid'

theorem Value.IsBasic.sharesEntry_eq {value other other' : Value} (h : value.IsBasic)
    (hother : other.Renamed ρ other') :
    value.sharesEntry other = value.sharesEntry other' ∧
      other.sharesEntry value = other'.sharesEntry value := by
  cases hother with
  | basic _ => exact ⟨rfl, rfl⟩
  | _ =>
    cases value with
    | function _ | shape _ _ | record _ => exact h.elim
    | _ => exact ⟨rfl, rfl⟩

theorem Value.sharesEntry_of_shared {value a b : Value} (ha : value.sharesEntry a = true)
    (hb : value.sharesEntry b = true) : a.sharesEntry b = true := by
  cases value <;> cases a <;> first
    | exact hb
    | cases ha
    | cases b <;> first
      | cases hb
      | exact decide_eq_true ((of_decide_eq_true ha).symm.trans (of_decide_eq_true hb))

/-- Two values share their entry on both sides, or on none. -/
theorem Value.Renamed.sharesEntry_eq (hρ : ρ.Shifts o) {value value' other other' : Value}
    (h : value.Renamed ρ value') (hother : other.Renamed ρ other') :
    value.sharesEntry other = value'.sharesEntry other' := by
  cases h with
  | basic hbasic => exact (hbasic.sharesEntry_eq hother).1
  | function hf =>
    cases hother with
    | basic hbasic => exact (hbasic.sharesEntry_eq (.function hf)).2
    | function hg => exact decide_eq_decide.mpr (hf.id_eq_iff hρ hg)
    | shape _ _ | record _ => rfl
  | shape layout hid =>
    cases hother with
    | basic hbasic => exact (hbasic.sharesEntry_eq (.shape layout hid)).2
    | shape layout' hid' => exact decide_eq_decide.mpr (hρ.id_iff hid hid')
    | function _ | record _ => rfl
  | record hid =>
    cases hother with
    | basic hbasic => exact (hbasic.sharesEntry_eq (.record hid)).2
    | record hid' => exact decide_eq_decide.mpr (hρ.record_iff hid hid')
    | function _ | shape _ _ => rfl

/-- Where a value from before has the identity of one that is created, both are the same. -/
theorem Value.Renamed.of_foreign (hρ : ρ.Shifts o) {value value' found : Value}
    (h : value.Renamed ρ value') (hfound : found.IsForeign o)
    (hshares : value'.sharesEntry found = true) : value.Renamed ρ found := by
  cases h with
  | basic hbasic =>
    have heq : found = value := Value.eq_of_sharesEntry hshares
      (fun f hf ↦ by rw [hf] at hbasic; exact hbasic)
      (fun id shape hs ↦ by rw [hs] at hbasic; exact hbasic)
    rw [heq]
    exact .basic hbasic
  | function hf =>
    obtain ⟨g, rfl, hid⟩ := Value.function_of_sharesEntry hshares
    cases hf with
    | builtin op =>
      have hop := op.id_lt
      rcases hfound with ⟨op', rfl⟩ | ⟨hle, -⟩
      · rw [← Builtin.function_unique hid]
        exact .function (.builtin op)
      · omega
    | compiled hid' _ =>
      obtain ⟨hle, rfl⟩ := (hρ.id _ _).mp hid'
      simp only at hid
      rcases hfound with ⟨op', rfl⟩ | ⟨-, hlt⟩
      · have hop := op'.id_lt
        omega
      · omega
  | shape layout hid =>
    obtain ⟨hle, rfl⟩ := (hρ.id _ _).mp hid
    cases found with
    | shape id' layout' =>
      have heq : _ + o.ids = id' := of_decide_eq_true hshares
      have hlt : id' < Builtin.all.length + o.ids := hfound
      omega
    | _ => cases hshares
  | record hid =>
    obtain rfl := (hρ.record _ _).mp hid
    cases found with
    | record id' =>
      obtain rfl : _ + o.records = id' := of_decide_eq_true hshares
      exact absurd hfound (Nat.not_lt.mpr (Nat.le_add_left _ _))
    | _ => cases hshares

end Identities

/-! ## Dictionaries -/

/-- A value that shares an entry finds this entry. -/
theorem Dictionary.IsDistinct.indexOf?_of_shares {dict : Dictionary} (h : dict.IsDistinct)
    {index : Nat} {value found : Value} (hfound : dict.get? index = some found)
    (hshares : value.sharesEntry found = true) : dict.indexOf? value = some index := by
  cases hother : dict.indexOf? value with
  | none => exact absurd hshares (Dictionary.indexOf?_eq_none hother hfound)
  | some other =>
    obtain ⟨found', hfound', hshares'⟩ := Dictionary.indexOf?_eq_some hother
    rcases Nat.lt_trichotomy index other with hlt | rfl | hlt
    · exact absurd (Value.sharesEntry_of_shared hshares' hshares) (h _ _ _ _ hlt hfound hfound')
    · rfl
    · exact absurd (Value.sharesEntry_of_shared hshares hshares') (h _ _ _ _ hlt hfound' hfound)

/-- The second dictionary has all entries of the first one, among values from before. -/
structure Dictionary.Tracks (o : Offsets) (ρ : Renaming) (dict dict' : Dictionary) : Prop where
  shifts : ρ.Shifts o
  renamed : dict.Renamed ρ dict'
  total : ∀ index, index < dict.size → ∃ index', ρ.entry index index'
  unique : Relator.BiUnique ρ.entry
  undefined : ρ.entry 0 0
  distinct : dict'.IsDistinct
  foreign : ∀ index value, dict'.get? index = some value →
    (∃ place, ρ.entry place index) ∨ value.IsForeign o

/-- The renaming under which one more pair of entries belongs together. -/
def Renaming.withEntry (ρ : Renaming) (index index' : Nat) : Renaming :=
  { ρ with entry := fun i j ↦ ρ.entry i j ∨ i = index ∧ j = index' }

theorem Renaming.extends_withEntry (ρ : Renaming) (index index' : Nat) :
    ρ.Extends (ρ.withEntry index index') :=
  ⟨fun _ _ h ↦ .inl h, fun _ _ h ↦ h, fun _ _ h ↦ h, fun _ _ h ↦ h⟩

namespace Dictionary.Tracks

variable {o : Offsets} {ρ : Renaming} {dict dict' : Dictionary} {value value' : Value}
  {index index' : Nat}

theorem lt_of_entry (h : dict.Tracks o ρ dict') (hentry : ρ.entry index index') :
    index < dict.size ∧ index' < dict'.size := by
  obtain ⟨value, value', hvalue, hvalue', -⟩ := h.renamed index index' hentry
  exact ⟨(Array.getElem?_eq_some_iff.mp hvalue).1, (Array.getElem?_eq_some_iff.mp hvalue').1⟩

/-- There are no more entries than in the dictionary that was filled before. -/
theorem size_le (h : dict.Tracks o ρ dict') : dict.size ≤ dict'.size := by
  choose place hplace using fun index : Fin dict.size ↦ h.total index index.isLt
  have hinjective : Function.Injective fun index ↦
      (⟨place index, (h.lt_of_entry (hplace index)).2⟩ : Fin dict'.size) := by
    intro i j hij
    have hsame : place i = place j := congrArg Fin.val hij
    exact Fin.ext (h.unique.1 (hplace i) (hsame ▸ hplace j))
  simpa only [Fintype.card_fin] using Fintype.card_le_of_injective _ hinjective

/-- A value that has an entry on the first side has the entry that belongs to it on the other. -/
theorem indexOf?_eq_some (h : dict.Tracks o ρ dict') (hvalue : value.Renamed ρ value')
    (hindex : dict.indexOf? value = some index) :
    ∃ index', dict'.indexOf? value' = some index' ∧ ρ.entry index index' := by
  obtain ⟨found, hfound, hshares⟩ := Dictionary.indexOf?_eq_some hindex
  obtain ⟨index', hentry⟩ := h.total index (Array.getElem?_eq_some_iff.mp hfound).1
  obtain ⟨known, found', hknown, hfound', hrenamed⟩ := h.renamed index index' hentry
  obtain rfl := Option.some.inj (hfound.symm.trans hknown)
  rw [hvalue.sharesEntry_eq h.shifts hrenamed] at hshares
  exact ⟨index', h.distinct.indexOf?_of_shares hfound' hshares, hentry⟩

/-- A value that has no entry on the first side has at most one from before on the other. -/
theorem renamed_of_indexOf? (h : dict.Tracks o ρ dict') (hvalue : value.Renamed ρ value')
    (hnone : dict.indexOf? value = none) (hindex : dict'.indexOf? value' = some index') :
    (∀ place, ¬ρ.entry place index') ∧
      ∃ found, dict'.get? index' = some found ∧ value.Renamed ρ found := by
  obtain ⟨found, hfound, hshares⟩ := Dictionary.indexOf?_eq_some hindex
  have hunknown : ∀ place, ¬ρ.entry place index' := by
    intro place hentry
    obtain ⟨known, found', hknown, hfound', hrenamed⟩ := h.renamed place index' hentry
    obtain rfl := Option.some.inj (hfound.symm.trans hfound')
    rw [← hvalue.sharesEntry_eq h.shifts hrenamed] at hshares
    exact Dictionary.indexOf?_eq_none hnone hknown hshares
  refine ⟨hunknown, found, hfound, ?_⟩
  rcases h.foreign index' found hfound with ⟨place, hentry⟩ | hforeign
  · exact absurd hentry (hunknown place)
  · exact hvalue.of_foreign h.shifts hforeign hshares

/-- The value is added on the first side, and found or added on the other. -/
theorem withEntry (h : dict.Tracks o ρ dict') {dict'' : Dictionary} {found : Value}
    (hgrows : dict'.GrowsTo dict'') (hdistinct : dict''.IsDistinct)
    (hnew : ∀ place, ¬ρ.entry place index') (hfound : dict''.get? index' = some found)
    (hrenamed : value.Renamed ρ found)
    (hadded : ∀ index other, dict''.get? index = some other →
      dict'.get? index = some other ∨ index = index') :
    Dictionary.Tracks o (ρ.withEntry dict.size index') ⟨dict.entries.push value⟩ dict'' := by
  have hρ := ρ.extends_withEntry dict.size index'
  have hlast : (⟨dict.entries.push value⟩ : Dictionary).get? dict.size = some value := by
    simp [get?, size]
  refine ⟨⟨h.shifts.id, h.shifts.record, h.shifts.heap⟩, ?_, ?_, ⟨?_, ?_⟩, .inl h.undefined,
    hdistinct, ?_⟩
  · rintro i j (hij | ⟨rfl, rfl⟩)
    · obtain ⟨a, b, ha, hb, hab⟩ := h.renamed i j hij
      exact ⟨a, b, (GrowsTo.push dict value).get? ha, hgrows.get? hb, hab.mono hρ⟩
    · exact ⟨value, found, hlast, hfound, hrenamed.mono hρ⟩
  · intro i hi
    by_cases hsize : i < dict.size
    · obtain ⟨j, hij⟩ := h.total i hsize
      exact ⟨j, .inl hij⟩
    · have hpush : (dict.entries.push value).size = dict.size + 1 := Array.size_push value
      have hi : i < (dict.entries.push value).size := hi
      exact ⟨index', .inr ⟨by omega, rfl⟩⟩
  · rintro i j k (hik | ⟨rfl, rfl⟩) (hjk | ⟨rfl, hk⟩)
    · exact h.unique.1 hik hjk
    · exact absurd (hk ▸ hik) (hnew i)
    · exact absurd hjk (hnew j)
    · rfl
  · rintro i j k (hij | ⟨rfl, rfl⟩) (hik | ⟨hi, rfl⟩)
    · exact h.unique.2 hij hik
    · exact absurd (h.lt_of_entry hij).1 (hi ▸ Nat.lt_irrefl _)
    · exact absurd (h.lt_of_entry hik).1 (Nat.lt_irrefl _)
    · rfl
  · intro index other hother
    rcases hadded index other hother with hold | rfl
    · rcases h.foreign index other hold with ⟨place, hentry⟩ | hforeign
      · exact .inl ⟨place, .inl hentry⟩
      · exact .inr hforeign
    · exact .inl ⟨dict.size, .inr ⟨rfl, rfl⟩⟩

end Dictionary.Tracks

theorem Word.exists_entry? {index : Nat} (h : index < indexBound) :
    ∃ word, Word.entry? index = some word := by
  unfold Word.entry?
  rw [if_pos h]
  exact ⟨_, rfl⟩

theorem Dictionary.intern_of_indexOf? {dict : Dictionary} {value : Value} {index : Nat}
    {word : Word} (hindex : dict.indexOf? value = some index)
    (hword : Word.entry? index = some word) : intern value dict = .ok word dict := by
  unfold intern
  rw [hindex]
  simp only [hword]

/-- Values that correspond get words that correspond. -/
theorem Dictionary.intern_alongside {o : Offsets} {ρ : Renaming} {value value' : Value}
    (h : value.Renamed ρ value') :
    Alongside id (Tracks o) ρ Word.Renamed (intern value) (intern value') := by
  intro dict dict' htracks hroom
  -- The entry may be old on both sides, old on the second side only, or new on both. It cannot be
  -- old on the first side only, since each entry there has one on the other side.
  have hbound : dict'.size < indexBound :=
    Nat.lt_of_le_of_lt (Dictionary.intern_grows value' dict').size_le hroom
  have hsize := htracks.size_le
  cases hindex : dict.indexOf? value with
  | some index =>
    obtain ⟨index', hindex', hentry⟩ := htracks.indexOf?_eq_some h hindex
    obtain ⟨hlt, hlt'⟩ := htracks.lt_of_entry hentry
    obtain ⟨word, hword⟩ := Word.exists_entry? (Nat.lt_trans hlt (Nat.lt_of_le_of_lt hsize hbound))
    obtain ⟨word', hword'⟩ := Word.exists_entry? (Nat.lt_trans hlt' hbound)
    rw [intern_of_indexOf? hindex hword, intern_of_indexOf? hindex' hword']
    exact ⟨ρ, .refl ρ, .entry (Word.view_of_entry? hword) (Word.view_of_entry? hword') hentry,
      htracks⟩
  | none =>
    obtain ⟨word, hword⟩ := Word.exists_entry? (Nat.lt_of_le_of_lt hsize hbound)
    rw [intern_of_new hindex hword]
    cases hindex' : dict'.indexOf? value' with
    | some index' =>
      obtain ⟨hnew, found, hfound, hrenamed⟩ := htracks.renamed_of_indexOf? h hindex hindex'
      have hlt' := (Array.getElem?_eq_some_iff.mp hfound).1
      obtain ⟨word', hword'⟩ := Word.exists_entry? (Nat.lt_trans hlt' hbound)
      rw [intern_of_indexOf? hindex' hword']
      exact ⟨ρ.withEntry dict.size index', ρ.extends_withEntry _ _,
        .entry (Word.view_of_entry? hword) (Word.view_of_entry? hword') (.inr ⟨rfl, rfl⟩),
        htracks.withEntry (.refl dict') htracks.distinct hnew hfound hrenamed
          fun _ _ hother ↦ .inl hother⟩
    | none =>
      obtain ⟨word', hword'⟩ := Word.exists_entry? hbound
      rw [intern_of_new hindex' hword']
      refine ⟨ρ.withEntry dict.size dict'.size, ρ.extends_withEntry _ _,
        .entry (Word.view_of_entry? hword) (Word.view_of_entry? hword') (.inr ⟨rfl, rfl⟩),
        htracks.withEntry (.push dict' value') (htracks.distinct.push hindex')
          (fun place hentry ↦ absurd (htracks.lt_of_entry hentry).2 (Nat.lt_irrefl _))
          (by simp [get?, size]) h ?_⟩
      intro index other hother
      simp only [get?, Array.getElem?_push] at hother
      split at hother
      · next hlast => exact .inr hlast
      · exact .inl hother

end TandemScript
