import Mathlib.Data.Int.ModEq
import TandemScript.Proofs.Resemblance
import TandemScript.Proofs.RoundTrip

/-!
# Arithmetic of integers

A sum, a difference or a product is the one integer of 32 bits that is congruent to the exact
result. Division truncates toward zero, and the remainder has the sign of the dividend; only the
least integer divided by minus one has a quotient that wraps around. All five functions complain
about the leftmost operand that is not an integer before anything else. An integer that crosses the
boundary of a machine comes back unchanged.
-/

namespace TandemScript

/-! ## Integers of 32 bits -/

section Integers

variable {x y z : Int32} {n : Int}

/-- An integer of 32 bits is known by its residue. -/
theorem eq_of_modEq (h : x.toInt ≡ y.toInt [ZMOD 2 ^ 32]) : x = y := by
  have hx := x.le_toInt
  have hx' := x.toInt_lt
  have hy := y.le_toInt
  have hy' := y.toInt_lt
  apply Int32.toInt_inj.mp
  unfold Int.ModEq at h
  omega

theorem modEq_iff_of_toInt_eq (h : z.toInt = n.bmod (2 ^ 32)) {other : Int32} :
    other.toInt ≡ n [ZMOD 2 ^ 32] ↔ other = z := by
  have hz : z.toInt ≡ n [ZMOD 2 ^ 32] := by
    rw [h]
    exact Int.bmod_emod
  exact ⟨fun hother ↦ eq_of_modEq (hother.trans hz.symm), fun heq ↦ heq ▸ hz⟩

/-- Quotient and remainder of a division that truncates toward zero. The quotient is exact unless
the least integer is divided by minus one. -/
structure TruncatedDivision (x y q r : Int32) : Prop where
  quotient : q.toInt ≡ x.toInt.tdiv y.toInt [ZMOD 2 ^ 32]
  truncated : ¬ (x = Int32.minValue ∧ y = -1) → q.toInt = x.toInt.tdiv y.toInt
  product : x.toInt ≡ q.toInt * y.toInt + r.toInt [ZMOD 2 ^ 32]
  remainder_lt : r.toInt.natAbs < y.toInt.natAbs
  sign : r = 0 ∨ r.toInt.sign = x.toInt.sign

theorem truncatedDivision (x : Int32) (hy : y ≠ 0) : TruncatedDivision x y (x / y) (x % y) := by
  have hquotient : (x / y).toInt ≡ x.toInt.tdiv y.toInt [ZMOD 2 ^ 32] :=
    (modEq_iff_of_toInt_eq (Int32.toInt_div x y)).mpr rfl
  refine ⟨hquotient, fun hedge ↦ ?_, ?_, ?_, ?_⟩
  · by_cases hx : x = Int32.minValue
    · exact Int32.toInt_div_of_ne_right x y fun hy ↦ hedge ⟨hx, hy⟩
    · exact Int32.toInt_div_of_ne_left x y hx
  · calc x.toInt = x.toInt.tdiv y.toInt * y.toInt + x.toInt.tmod y.toInt :=
          (Int.tdiv_mul_add_tmod _ _).symm
      _ ≡ (x / y).toInt * y.toInt + (x % y).toInt [ZMOD 2 ^ 32] := by
        rw [Int32.toInt_mod]
        exact (hquotient.symm.mul_right _).add_right _
  · have hpos : 0 < y.toInt.natAbs := by
      apply Int.natAbs_pos.mpr
      exact fun hzero ↦ hy (Int32.toInt_inj.mp hzero)
    rw [Int32.toInt_mod, Int.natAbs_tmod]
    exact Nat.mod_lt _ hpos
  · rw [← Int32.toInt_inj, Int32.toInt_mod, Int.sign_tmod]
    by_cases hdvd : y.toInt ∣ x.toInt
    · exact .inl (Int.tmod_eq_zero_of_dvd hdvd)
    · exact .inr (if_neg hdvd)

example : Int32.minValue / -1 = Int32.minValue ∧ Int32.minValue % -1 = 0 ∧
    (-7 : Int32) / 2 = -3 ∧ (-7 : Int32) % 2 = -1 := by decide

end Integers

/-! ## Arithmetic functions -/

def Value.isInt : Value → Bool
  | .int _ => true
  | _ => false

namespace Builtin

/-- The exact result of a function that is defined for all integers. -/
def onIntegers? : Builtin → Option (Int → Int → Int)
  | add => some fun m n ↦ m + n
  | sub => some fun m n ↦ m - n
  | mul => some fun m n ↦ m * n
  | _ => none

variable {op : Builtin} {f : Int → Int → Int} {a b value : Value}

theorem call_of_onIntegers? (h : op.onIntegers? = some f) (records : Records) (x y : Int32) :
    ∃ z, op.call records [.int x, .int y] = (.ok (.int z), "") ∧
      z.toInt = (f x.toInt y.toInt).bmod (2 ^ 32) := by
  cases op with
  | add =>
    obtain rfl := Option.some.inj h
    exact ⟨x + y, rfl, Int32.toInt_add x y⟩
  | sub =>
    obtain rfl := Option.some.inj h
    exact ⟨x - y, rfl, Int32.toInt_sub x y⟩
  | mul =>
    obtain rfl := Option.some.inj h
    exact ⟨x * y, rfl, Int32.toInt_mul x y⟩
  | _ => cases h

theorem bothIntegers_eq_error (h : [a, b].find? (fun operand ↦ !operand.isInt) = some value)
    (records : Records) : bothIntegers records a b = .error (.notA "integer" records value) := by
  cases a with
  | int x =>
    cases b with
    | int y => cases h
    | _ =>
      obtain rfl := Option.some.inj h
      rfl
  | _ =>
    obtain rfl := Option.some.inj h
    rfl

theorem call_eq_error (hop : op ∈ [add, sub, mul, div, rem])
    (h : [a, b].find? (fun operand ↦ !operand.isInt) = some value) (records : Records) :
    op.call records [a, b] = (.error (.notA "integer" records value), "") := by
  have herror := bothIntegers_eq_error h records
  cases op with
  | add | sub | mul | div | rem =>
    rw [call_of_two (by decide)]
    unfold applyBinary
    rw [herror]
    rfl
  | _ => exact absurd hop (by decide)

theorem call_div_rem (records : Records) (x : Int32) {y : Int32} (hy : y ≠ 0) :
    div.call records [.int x, .int y] = (.ok (.int (x / y)), "") ∧
      rem.call records [.int x, .int y] = (.ok (.int (x % y)), "") := by
  refine ⟨?_, ?_⟩ <;>
  · rw [call_of_two (by decide)]
    simp [applyBinary, bothIntegers, hy, bind, Except.bind, pure, Except.pure]

end Builtin

/-! ## Crossing the boundary -/

/-- The integer has a word, which decodes to it from then on, or it is negative and there is no room
for it. -/
theorem encode_int (records : Records) (heap : Heap) (dict : Dictionary) (n : Int32) :
    (∃ word dict', encode records heap (.int n) dict = .ok word dict' ∧
      ∀ later store other, dict'.GrowsTo later →
        decode later other word store = .ok (.int n) store) ∨
      n < 0 ∧ indexBound ≤ dict.size ∧
        encode records heap (.int n) dict = .error (.inconsistent .dictionaryFull) dict := by
  by_cases hneg : n < 0
  · have hnone : (Value.int n).ownWord? records heap = none := if_pos hneg
    have hencode : encode records heap (.int n) = Dictionary.intern (.int n) :=
      encode_of_none hnone fun origin ↦ by rintro ⟨id, hid, -⟩; cases hid
    rw [hencode]
    rcases Dictionary.intern_spec (.int n) dict with ⟨word, dict', found, hword, h⟩ | ⟨hfull, hle⟩
    · have hfound : found = .int n :=
        Value.eq_of_sharesEntry h.shares (fun f hf ↦ by cases hf) fun id shape hs ↦ by cases hs
      rw [hfound] at h
      exact .inl ⟨word, dict', hword, fun later store other hgrows ↦
        decode_value (hgrows.value h.names) store⟩
    · exact .inr ⟨hneg, hle, hfull⟩
  · have hown : (Value.int n).ownWord? records heap = some (.small n.toInt.toNat) :=
      Word.ofInt?_of_nonneg hneg
    exact .inl ⟨_, dict, encode_of_ownWord? hown dict, fun later store other _ ↦
      decode_small_toNat hneg store⟩

open Builtin in
/-- Arithmetic on integers gives the integer that is congruent to the exact result. A division by
zero fails, and every other division truncates toward zero. If an operand is no integer, the
leftmost one is the wrong one, whatever the divisor is. Every integer comes back from a machine as
it was, unless it is negative and the dictionary has no room for it. -/
theorem arithmetic_congruent (records : Records) :
    (∀ (op : Builtin) f, op.onIntegers? = some f → ∀ x y : Int32, ∃ z,
      op.call records [.int x, .int y] = (.ok (.int z), "") ∧
        ∀ other : Int32, other.toInt ≡ f x.toInt y.toInt [ZMOD 2 ^ 32] ↔ other = z) ∧
      (∀ op ∈ [div, rem], ∀ x,
        op.call records [.int x, .int 0] = (.error ⟨.divisionByZero, {}⟩, "")) ∧
      (∀ x y, y ≠ 0 → ∃ q r, div.call records [.int x, .int y] = (.ok (.int q), "") ∧
        rem.call records [.int x, .int y] = (.ok (.int r), "") ∧ TruncatedDivision x y q r) ∧
      (∀ op ∈ [add, sub, mul, div, rem], ∀ a b value,
        [a, b].find? (fun operand ↦ !operand.isInt) = some value →
          op.call records [a, b] = (.error (.notA "integer" records value), "")) ∧
      ∀ heap dict n,
        (∃ word dict', encode records heap (.int n) dict = .ok word dict' ∧
          ∀ later store other, dict'.GrowsTo later →
            decode later other word store = .ok (.int n) store) ∨
          n < 0 ∧ indexBound ≤ dict.size ∧
            encode records heap (.int n) dict = .error (.inconsistent .dictionaryFull) dict := by
  refine ⟨fun op f hf x y ↦ ?_, fun op hop x ↦ ?_, fun x y hy ↦ ?_,
    fun op hop a b value hvalue ↦ call_eq_error hop hvalue records,
    fun heap dict n ↦ encode_int records heap dict n⟩
  · obtain ⟨z, hcall, hz⟩ := call_of_onIntegers? hf records x y
    exact ⟨z, hcall, fun other ↦ modEq_iff_of_toInt_eq hz⟩
  · cases op with
    | div | rem => rfl
    | _ => exact absurd hop (by decide)
  · obtain ⟨hdiv, hrem⟩ := call_div_rem records x hy
    exact ⟨x / y, x % y, hdiv, hrem, truncatedDivision x hy⟩

def smallHeap : Heap := { id := 1, capacity := 8 }

open Builtin in
/-- The least integer wraps around below and when it is divided by minus one, a string is divided by
zero, and a negative number goes into a dictionary and comes back. -/
theorem arithmetic_congruent_leastInteger :
    sub.call {} [.int Int32.minValue, .int 1] = (.ok (.int Int32.maxValue), "") ∧
      (∃ q r, div.call {} [.int Int32.minValue, .int (-1)] = (.ok (.int q), "") ∧
        TruncatedDivision Int32.minValue (-1) q r) ∧
      div.call {} [.str "a", .int 0] = (.error (.notA "integer" {} (.str "a")), "") ∧
      ∃ word dict', encode {} smallHeap (.int (-1)) .new = .ok word dict' ∧
        decode dict' smallHeap word {} = .ok (.int (-1)) {} := by
  obtain ⟨hcongruent, -, hdivided, hwrong, hcrosses⟩ := arithmetic_congruent {}
  refine ⟨?_, ?_, hwrong div (by decide) _ _ _ rfl, ?_⟩
  · obtain ⟨z, hcall, hz⟩ := hcongruent sub _ rfl Int32.minValue 1
    have hmax : Int32.maxValue = z := (hz _).mp (by decide)
    rw [hmax]
    exact hcall
  · obtain ⟨q, r, hdiv, -, hdivision⟩ := hdivided Int32.minValue (-1) (by decide)
    exact ⟨q, r, hdiv, hdivision⟩
  · rcases hcrosses smallHeap .new (-1) with ⟨word, dict', hword, hback⟩ | ⟨-, hfull, -⟩
    · exact ⟨word, dict', hword, hback dict' {} _ (.refl dict')⟩
    · exact absurd hfull (by decide)

end TandemScript
