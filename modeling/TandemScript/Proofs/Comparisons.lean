import Mathlib.Logic.Function.Basic
import TandemScript.Proofs.Resemblance

/-!
# Equality and order

Two values are equal if they have one identity: the content of a number or string, the place in a
heap of a record that was read from there, and the number of anything else. Integers and strings
have an order, which the four comparisons ask about; it never says of two values that differ that
they are equal, and all other pairs of operands are a type mismatch.
-/

namespace TandemScript

/-! ## Identity -/

/-- What two equal values have in common. -/
inductive Value.Identity
  | undefined
  | global
  | int (n : Int32)
  | str (s : String)
  | function (id : Nat)
  | shape (id : Nat)
  | record (id : RecordId)
  | place (origin : Origin)

/-- Records that were read from one place of a heap are one object. -/
def Records.identity (records : Records) (id : RecordId) : Value.Identity :=
  match records.origin? id with
  | some origin => .place origin
  | none => .record id

def Value.identity (records : Records) : Value → Identity
  | undefined => .undefined
  | int n => .int n
  | str s => .str s
  | function f => .function f.id
  | shape id _ => .shape id
  | record id => records.identity id
  | global => .global

variable {records : Records} {a b c : Value} {truth : Bool}

theorem Records.sameObject_iff {i j : RecordId} :
    records.sameObject i j = true ↔
      i = j ∨ ∃ origin, records.origin? i = some origin ∧ records.origin? j = some origin := by
  unfold sameObject
  cases hi : records.origin? i with
  | none => simp
  | some origin =>
    cases hj : records.origin? j with
    | none => simp
    | some other =>
      simp only [Bool.or_eq_true, decide_eq_true_eq, Option.some.injEq, exists_eq_left']
      rw [eq_comm (a := origin)]

theorem Records.sameObject_iff_identity {i j : RecordId} :
    records.sameObject i j = true ↔ records.identity i = records.identity j := by
  unfold sameObject identity
  by_cases hij : i = j
  · simp [hij]
  · cases records.origin? i <;> cases records.origin? j <;> simp [hij]

theorem Value.same_iff_identity :
    a.same records b = true ↔ a.identity records = b.identity records := by
  have hrecord (id : RecordId) : records.identity id = .record id ∨
      ∃ origin, records.identity id = .place origin := by
    unfold Records.identity
    cases records.origin? id <;> simp
  cases a with
  | record i =>
    cases b with
    | record j => exact Records.sameObject_iff_identity
    | _ => obtain h | ⟨origin, h⟩ := hrecord i <;> simp [same, identity, h]
  | _ =>
    cases b with
    | record j => obtain h | ⟨origin, h⟩ := hrecord j <;> simp [same, identity, h]
    | _ => simp [same, identity]

theorem Value.same_equivalence (records : Records) :
    Equivalence fun a b : Value ↦ a.same records b = true := by
  have hidentity : (fun a b : Value ↦ a.same records b = true) =
      InvImage (· = ·) (identity records) := by
    funext a b
    exact propext same_iff_identity
  rw [hidentity]
  exact InvImage.equivalence _ _ eq_equivalence

theorem Value.same_self (records : Records) (value : Value) : value.same records value = true :=
  (same_equivalence records).refl value

/-! ## Order -/

/-- Two integers or two strings. -/
inductive Value.Ordered : Value → Value → Prop
  | ints (x y : Int32) : Ordered (.int x) (.int y)
  | strs (x y : String) : Ordered (.str x) (.str y)

/-- The order of two integers or two strings. -/
def Value.order? : Value → Value → Option Ordering
  | .int x, .int y => some (compare x.toInt y.toInt)
  | .str x, .str y => some (compare x y)
  | _, _ => none

namespace Value

theorem Ordered.exists_order? (h : a.Ordered b) : ∃ order, a.order? b = some order := by
  cases h <;> exact ⟨_, rfl⟩

theorem ordered_of_order? {order : Ordering} (h : a.order? b = some order) : a.Ordered b := by
  unfold order? at h
  split at h
  · exact .ints _ _
  · exact .strs _ _
  · cases h

theorem order?_swap (a b : Value) : b.order? a = (a.order? b).map Ordering.swap := by
  by_cases h : a.Ordered b
  · cases h with
    | ints x y => exact congrArg some Std.OrientedCmp.eq_swap
    | strs x y => exact congrArg some Std.OrientedCmp.eq_swap
  · have hnone {a b : Value} (h : ¬ a.Ordered b) : a.order? b = none :=
      Option.eq_none_iff_forall_ne_some.mpr fun order horder ↦ h (ordered_of_order? horder)
    have hswapped : ¬ b.Ordered a := fun hba ↦ h (by cases hba <;> constructor)
    rw [hnone h, hnone hswapped]
    rfl

/-- Values that have an order are equal if neither is before the other. -/
theorem Ordered.same_iff (h : a.Ordered b) :
    a.same records b = true ↔ a.order? b = some .eq := by
  cases h with
  | ints x y => simp [same, order?, Int32.toInt_inj]
  | strs x y => simp [same, order?]

theorem order?_trans (hab : a.order? b = some .lt) (hbc : b.order? c = some .lt) :
    a.order? c = some .lt := by
  cases ordered_of_order? hab with
  | ints x y =>
    cases ordered_of_order? hbc with
    | ints _ z =>
      exact congrArg some (Std.TransCmp.lt_trans (Option.some.inj hab) (Option.some.inj hbc))
  | strs x y =>
    cases ordered_of_order? hbc with
    | strs _ z =>
      exact congrArg some (Std.TransCmp.lt_trans (Option.some.inj hab) (Option.some.inj hbc))

theorem ofBool_inj {p q : Bool} : ofBool p = ofBool q ↔ p = q := by
  cases p <;> cases q <;> simp [ofBool]

end Value

namespace Builtin

theorem order_of_order? {order : Ordering} (h : a.order? b = some order) (records : Records) :
    Builtin.order records a b = .ok order := by
  cases Value.ordered_of_order? h <;> exact congrArg Except.ok (Option.some.inj h)

theorem exists_order_eq_error (h : a.order? b = none) (records : Records) :
    ∃ expected found, Builtin.order records a b = .error ⟨.typeMismatch expected found, {}⟩ := by
  unfold Value.order? at h
  unfold order
  split <;> first | exact ⟨_, _, rfl⟩ | cases h

/-! ## Calls -/

/-- The call answers with a truth value, and prints nothing. -/
def Answers (records : Records) (op : Builtin) (a b : Value) (truth : Bool) : Prop :=
  op.call records [a, b] = (.ok (.ofBool truth), "")

/-- The orders for which a comparison answers with true. -/
def accepts? : Builtin → Option (Ordering → Bool)
  | lt => some Ordering.isLT
  | le => some Ordering.isLE
  | gt => some Ordering.isGT
  | ge => some Ordering.isGE
  | _ => none

variable {op : Builtin} {accepts : Ordering → Bool}

theorem exists_accepts? (h : op ∈ [lt, le, gt, ge]) : ∃ accepts, op.accepts? = some accepts := by
  cases op with
  | lt | le | gt | ge => exact ⟨_, rfl⟩
  | _ => exact absurd h (by decide)

theorem answers_iff_of_call {answer : Bool}
    (h : op.call records [a, b] = (.ok (.ofBool answer), "")) :
    op.Answers records a b truth ↔ answer = truth := by
  rw [Answers, h, Prod.mk.injEq, Except.ok.injEq, Value.ofBool_inj]
  exact and_iff_left rfl

theorem answers_eq : eq.Answers records a b truth ↔ a.same records b = truth :=
  answers_iff_of_call rfl

theorem answers_ne : ne.Answers records a b truth ↔ (!a.same records b) = truth :=
  answers_iff_of_call rfl

theorem call_of_accepts? (h : op.accepts? = some accepts) (records : Records) (a b : Value) :
    op.call records [a, b] =
      ((order records a b).map fun order ↦ .ofBool (accepts order), "") := by
  cases op with
  | lt | le | gt | ge =>
    obtain rfl := Option.some.inj h
    rw [call_of_two (by decide)]
    unfold applyBinary
    cases order records a b <;> rfl
  | _ => cases h

theorem answers_iff (h : op.accepts? = some accepts) :
    op.Answers records a b truth ↔ (a.order? b).map accepts = some truth := by
  have hcall := call_of_accepts? h records a b
  cases horder : a.order? b with
  | some order =>
    rw [order_of_order? horder] at hcall
    rw [answers_iff_of_call hcall, Option.map_some, Option.some.injEq]
  | none =>
    obtain ⟨expected, found, herror⟩ := exists_order_eq_error horder records
    rw [herror] at hcall
    simp [Answers, hcall, Except.map]

theorem answers_lt : lt.Answers records a b true ↔ a.order? b = some .lt := by
  rw [answers_iff rfl]
  rcases a.order? b with _ | _ | _ | _ <;> decide

theorem answers_gt : gt.Answers records a b true ↔ a.order? b = some .gt := by
  rw [answers_iff rfl]
  rcases a.order? b with _ | _ | _ | _ <;> decide

/-- Two comparisons that accept opposite orders are the negations of one another. -/
theorem answers_not_iff {other : Builtin} {others : Ordering → Bool}
    (h : op.accepts? = some accepts) (hother : other.accepts? = some others)
    (hnot : ∀ order, others order = !accepts order) :
    op.Answers records a b truth ↔ other.Answers records a b (!truth) := by
  obtain rfl : others = fun order ↦ !accepts order := funext hnot
  rw [answers_iff h, answers_iff hother]
  cases a.order? b <;> simp

/-- Two comparisons that accept swapped orders answer alike on swapped operands. -/
theorem answers_swap_iff {other : Builtin} {others : Ordering → Bool}
    (h : op.accepts? = some accepts) (hother : other.accepts? = some others)
    (hswap : ∀ order, others order.swap = accepts order) :
    op.Answers records a b truth ↔ other.Answers records b a truth := by
  obtain rfl : accepts = others ∘ Ordering.swap := funext fun order ↦ (hswap order).symm
  rw [answers_iff h, answers_iff hother, Value.order?_swap a b, Option.map_map]

/-- A comparison answers exactly if its operands have an order. -/
theorem answers_or_mismatch (h : op.accepts? = some accepts) (records : Records) (a b : Value) :
    (a.Ordered b ∧ ∃ truth, op.Answers records a b truth) ∨
      ¬ a.Ordered b ∧ ∃ expected found,
        op.call records [a, b] = (.error ⟨.typeMismatch expected found, {}⟩, "") := by
  cases horder : a.order? b with
  | some order =>
    refine .inl ⟨Value.ordered_of_order? horder, accepts order, (answers_iff h).mpr ?_⟩
    rw [horder, Option.map_some]
  | none =>
    have hordered : ¬ a.Ordered b := fun hab ↦ by
      obtain ⟨order, hsome⟩ := hab.exists_order?
      cases horder.symm.trans hsome
    obtain ⟨expected, found, herror⟩ := exists_order_eq_error horder records
    refine .inr ⟨hordered, expected, found, ?_⟩
    rw [call_of_accepts? h, herror]
    rfl

/-- Exactly one of three questions has the answer yes. -/
theorem existsUnique_answers (h : a.Ordered b) (records : Records) :
    ∃! op, op ∈ [lt, eq, gt] ∧ op.Answers records a b true := by
  obtain ⟨order, horder⟩ := h.exists_order?
  have hlt : lt.Answers records a b true ↔ order = .lt := by
    rw [answers_lt, horder, Option.some.injEq]
  have heq : eq.Answers records a b true ↔ order = .eq := by
    rw [answers_eq, h.same_iff, horder, Option.some.injEq]
  have hgt : gt.Answers records a b true ↔ order = .gt := by
    rw [answers_gt, horder, Option.some.injEq]
  cases order with
  | lt =>
    refine ⟨lt, ⟨by decide, hlt.mpr rfl⟩, ?_⟩
    simp [heq, hgt]
  | eq =>
    refine ⟨eq, ⟨by decide, heq.mpr rfl⟩, ?_⟩
    simp [hlt, hgt]
  | gt =>
    refine ⟨gt, ⟨by decide, hgt.mpr rfl⟩, ?_⟩
    simp [hlt, heq]

end Builtin

open Builtin in
/-- Equality is an equivalence relation, which identifies records that were read from one place, and
inequality is its negation. A comparison answers if its operands are two integers or two strings,
and is a type mismatch otherwise. On such operands one is before the other unless they are equal,
and the four comparisons agree on that; what is before a value is also before all that is behind
it. -/
theorem comparisons_coherent (records : Records) :
    (Equivalence fun a b ↦ eq.Answers records a b true) ∧
      (∀ i j, eq.Answers records (.record i) (.record j) true ↔
        i = j ∨ ∃ origin, records.origin? i = some origin ∧ records.origin? j = some origin) ∧
      (∀ a b, ∃ truth, eq.Answers records a b truth ∧ ne.Answers records a b (!truth)) ∧
      (∀ op ∈ [lt, le, gt, ge], ∀ a b,
        (a.Ordered b ∧ ∃ truth, op.Answers records a b truth) ∨
          ¬ a.Ordered b ∧ ∃ expected found,
            op.call records [a, b] = (.error ⟨.typeMismatch expected found, {}⟩, "")) ∧
      (∀ a b, a.Ordered b → ∃! op, op ∈ [lt, eq, gt] ∧ op.Answers records a b true) ∧
      (∀ a b truth, (le.Answers records a b truth ↔ gt.Answers records a b (!truth)) ∧
        (ge.Answers records a b truth ↔ lt.Answers records a b (!truth)) ∧
        (lt.Answers records a b truth ↔ gt.Answers records b a truth)) ∧
      ∀ a b c, lt.Answers records a b true → lt.Answers records b c true →
        lt.Answers records a c true := by
  refine ⟨?_, fun i j ↦ answers_eq.trans Records.sameObject_iff,
    fun a b ↦ ⟨_, answers_eq.mpr rfl, answers_ne.mpr rfl⟩, fun op hop a b ↦ ?_,
    fun a b h ↦ existsUnique_answers h records, fun a b truth ↦ ⟨answers_not_iff rfl rfl ?_,
      answers_not_iff rfl rfl ?_, answers_swap_iff rfl rfl ?_⟩, fun a b c ↦ ?_⟩
  · simp only [answers_eq]
    exact Value.same_equivalence records
  · obtain ⟨accepts, haccepts⟩ := exists_accepts? hop
    exact answers_or_mismatch haccepts records a b
  · intro order
    cases order <;> rfl
  · intro order
    cases order <;> rfl
  · intro order
    cases order <;> rfl
  · simp only [answers_lt]
    exact Value.order?_trans

/-- Two views of one object of a heap, and an object of its own. -/
def twoViews : Records where
  cells := #[⟨.empty, #[], some ⟨0, 7⟩⟩, ⟨.empty, #[], some ⟨0, 7⟩⟩, ⟨.empty, #[], none⟩]

open Builtin in
/-- Two views of one object are equal, and they are not equal to another object. -/
theorem comparisons_coherent_twoViews :
    eq.Answers twoViews (.record 0) (.record 1) true ∧
      ne.Answers twoViews (.record 1) (.record 2) true := by
  obtain ⟨-, hrecord, hnegation, -⟩ := comparisons_coherent twoViews
  refine ⟨(hrecord 0 1).mpr (.inr ⟨⟨0, 7⟩, rfl, rfl⟩), ?_⟩
  have hdistinct : ¬ eq.Answers twoViews (.record 1) (.record 2) true := by
    rw [hrecord]
    rintro (hid | ⟨origin, -, horigin⟩)
    · cases hid
    · cases horigin
  obtain ⟨truth, heq, hne⟩ := hnegation (.record 1) (.record 2)
  cases truth with
  | true => exact absurd heq hdistinct
  | false => exact hne

end TandemScript
