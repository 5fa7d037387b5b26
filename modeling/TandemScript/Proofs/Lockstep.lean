import TandemScript.Engine

/-!
# Computations in lockstep

Two computations from related states are compared by what comes out: the same value or the same
stop, in related states again. Some stops of the first computation are waived, and then nothing
is asked of the second one. The relation is closed under sequencing, so that two runs of an engine
are compared one operation at a time.
-/

namespace TandemScript

variable {ε σ α β : Type}

/-- The second result is the first one in a related state, unless the first one is waived. -/
def Follows (waived : ε → Prop) (R : σ → σ → Prop) :
    EStateM.Result ε σ α → EStateM.Result ε σ α → Prop
  | .ok a s, result => ∃ s', result = .ok a s' ∧ R s s'
  | .error e s, result => waived e ∨ ∃ s', result = .error e s' ∧ R s s'

/-- From related states the second computation follows the first one. -/
def Lockstep (waived : ε → Prop) (R : σ → σ → Prop) (x y : EStateM ε σ α) : Prop :=
  ∀ s s', R s s' → Follows waived R (x s) (y s')

variable {waived : ε → Prop} {R : σ → σ → Prop}

theorem Follows.of_ok {a : α} {s s' : σ} (h : R s s') :
    Follows waived R (.ok a s : EStateM.Result ε σ α) (.ok a s') :=
  ⟨s', rfl, h⟩

theorem Follows.of_error {e : ε} {s s' : σ} (h : R s s') :
    Follows waived R (.error e s : EStateM.Result ε σ α) (.error e s') :=
  .inr ⟨s', rfl, h⟩

theorem Follows.of_waived {e : ε} {s : σ} {result : EStateM.Result ε σ α} (h : waived e) :
    Follows waived R (.error e s) result :=
  .inl h

/-- Both results are alike, in related states, or the first one is waived. -/
theorem Follows.cases {r r' : EStateM.Result ε σ α} (h : Follows waived R r r') :
    (∃ a s s', r = .ok a s ∧ r' = .ok a s' ∧ R s s') ∨
    (∃ e s s', r = .error e s ∧ r' = .error e s' ∧ R s s') ∨
    ∃ e s, r = .error e s ∧ waived e := by
  cases r with
  | ok a s =>
    obtain ⟨s', hr', hR⟩ := h
    exact .inl ⟨a, s, s', rfl, hr', hR⟩
  | error e s =>
    rcases h with hwaived | ⟨s', hr', hR⟩
    · exact .inr (.inr ⟨e, s, rfl, hwaived⟩)
    · exact .inr (.inl ⟨e, s, s', rfl, hr', hR⟩)

namespace Lockstep

theorem pure (a : α) : Lockstep waived R (Pure.pure a) (Pure.pure a) :=
  fun _ _ h ↦ Follows.of_ok h

theorem bind {x y : EStateM ε σ α} {f g : α → EStateM ε σ β} (hx : Lockstep waived R x y)
    (hf : ∀ a, Lockstep waived R (f a) (g a)) : Lockstep waived R (x >>= f) (y >>= g) := by
  intro s s' hs
  simp only [Bind.bind, EStateM.bind]
  rcases (hx s s' hs).cases with
    ⟨a, t, t', hxs, hys, hR⟩ | ⟨e, t, t', hxs, hys, hR⟩ | ⟨e, t, hxs, hwaived⟩
  · rw [hxs, hys]
    exact hf a t t' hR
  · rw [hxs, hys]
    exact Follows.of_error hR
  · rw [hxs]
    exact Follows.of_waived hwaived

/-- Every computation follows itself from the same state. -/
theorem refl (x : EStateM ε σ α) : Lockstep waived Eq x x := by
  rintro s _ rfl
  cases h : x s with
  | ok a t => exact Follows.of_ok rfl
  | error e t => exact Follows.of_error rfl

end Lockstep

/-! ## One run, twice

Two computations that go through the same states are compared by what holds in all these states. -/

/-- The same state, with a property. -/
def Along (P : σ → Prop) (s s' : σ) : Prop :=
  s = s' ∧ P s

theorem along_true : Along (fun _ : σ ↦ True) = Eq := by
  funext s s'
  simp only [Along, and_true]

end TandemScript
