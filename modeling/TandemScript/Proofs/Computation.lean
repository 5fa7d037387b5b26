/-!
# Computations that can fail

What a computation with a state and failures ensures: one condition for its value and the state
after it, another one for its failure and the state where it failed. Conditions compose along
sequences, so that a long computation is followed one operation at a time.
-/

namespace TandemScript

variable {ε σ α β : Type}

theorem bind_of_ok {x : EStateM ε σ α} {f : α → EStateM ε σ β} {s t : σ} {a : α}
    (h : x s = .ok a t) : (x >>= f) s = f a t := by
  simp only [bind, EStateM.bind, h]

theorem bind_of_error {x : EStateM ε σ α} {f : α → EStateM ε σ β} {s t : σ} {e : ε}
    (h : x s = .error e t) : (x >>= f) s = .error e t := by
  simp only [bind, EStateM.bind, h]

theorem exists_of_bind_eq_ok {x : Except ε α} {f : α → Except ε β} {b : β}
    (h : (x >>= f) = .ok b) : ∃ a, x = .ok a ∧ f a = .ok b := by
  cases x with
  | ok a => exact ⟨a, rfl, h⟩
  | error e => cases h

theorem error_of_bind_eq_error {x : Except ε α} {f : α → Except ε β} {e : ε}
    (h : (x >>= f) = .error e) : x = .error e ∨ ∃ a, x = .ok a ∧ f a = .error e := by
  cases x with
  | ok a => exact .inr ⟨a, rfl, h⟩
  | error e' => exact .inl (congrArg Except.error (Except.error.inj h))

theorem ofExcept_of_ok {x : Except ε α} {a : α} (h : x = .ok a) (s : σ) :
    (MonadExcept.ofExcept x : EStateM ε σ α) s = .ok a s := by
  rw [h]
  rfl

/-- From a state the computation gives a value with the first condition, or fails with the second
one. -/
def Ensures (x : EStateM ε σ α) (s : σ) (Q : α → σ → Prop) (E : ε → σ → Prop) : Prop :=
  match x s with
  | .ok a t => Q a t
  | .error e t => E e t

namespace Ensures

variable {x : EStateM ε σ α} {f : α → EStateM ε σ β} {s t : σ} {Q Q' : α → σ → Prop}
  {E E' : ε → σ → Prop}

theorem of_ok {a : α} (h : x s = .ok a t) (hQ : Q a t) : Ensures x s Q E := by
  unfold Ensures
  rw [h]
  exact hQ

theorem of_error {e : ε} (h : x s = .error e t) (hE : E e t) : Ensures x s Q E := by
  unfold Ensures
  rw [h]
  exact hE

theorem pure {a : α} (h : Q a s) : Ensures (Pure.pure a : EStateM ε σ α) s Q E :=
  h

/-- Nothing is asked of the computation. -/
theorem any (x : EStateM ε σ α) (s : σ) : Ensures x s (fun _ _ ↦ True) fun _ _ ↦ True := by
  unfold Ensures
  split <;> trivial

theorem mono (h : Ensures x s Q E) (hQ : ∀ a t, Q a t → Q' a t) (hE : ∀ e t, E e t → E' e t) :
    Ensures x s Q' E' := by
  unfold Ensures at h ⊢
  cases hx : x s with
  | ok a t => exact hQ a t (by simpa only [hx] using h)
  | error e t => exact hE e t (by simpa only [hx] using h)

theorem bind {Q : β → σ → Prop} {P : α → σ → Prop} (hx : Ensures x s P E)
    (hf : ∀ a t, P a t → Ensures (f a) t Q E) : Ensures (x >>= f) s Q E := by
  unfold Ensures at hx
  cases h : x s with
  | ok a t =>
    have hrest := hf a t (by simpa only [h] using hx)
    unfold Ensures at hrest ⊢
    rw [bind_of_ok h]
    exact hrest
  | error e t => exact of_error (bind_of_error h) (by simpa only [h] using hx)

theorem congr {y : EStateM ε σ α} (h : x s = y t) : Ensures x s Q E ↔ Ensures y t Q E := by
  unfold Ensures
  rw [h]

theorem bind_ok {Q : β → σ → Prop} {a : α} (hx : x s = .ok a t) (hf : Ensures (f a) t Q E) :
    Ensures (x >>= f) s Q E := by
  unfold Ensures at hf ⊢
  rw [bind_of_ok hx]
  exact hf

theorem and (h : Ensures x s Q E) (h' : Ensures x s Q' E) :
    Ensures x s (fun a t ↦ Q a t ∧ Q' a t) E := by
  unfold Ensures at *
  cases hx : x s with
  | ok a t =>
    rw [hx] at h h'
    exact ⟨h, h'⟩
  | error e t =>
    rw [hx] at h
    exact h

/-- Where the computation has a value, this is what it comes to. -/
theorem result (x : EStateM ε σ α) (s : σ) :
    Ensures x s (fun a t ↦ x s = .ok a t) fun _ _ ↦ True := by
  unfold Ensures
  cases hx : x s with
  | ok a t => rfl
  | error e t => trivial

end Ensures

end TandemScript
