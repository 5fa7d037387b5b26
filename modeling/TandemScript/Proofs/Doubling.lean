import Mathlib.Algebra.Group.Nat.Defs
import TandemScript.Machine.Execute
import TandemScript.Proofs.Room

/-!
# How a heap grows

The loop that makes room for an object doubles the capacity until the object fits or references
reach no further. It ends after thirty rounds at the latest, with the first capacity that suffices
where there is one, and it changes nothing but the capacity.
-/

namespace TandemScript

namespace Heap

/-! ## Rounds of the loop -/

/-- Twice the capacity, so many times in turn, as far as references reach; nothing counts as one
cell. -/
def doubled (heap : Heap) (rounds : Nat) : Nat :=
  min indexBound (2 ^ rounds * max heap.capacity 1)

/-- The capacity after so many rounds. -/
def capacityAfter (heap : Heap) : (rounds : Nat) → Nat
  | 0 => heap.capacity
  | rounds + 1 => heap.doubled (rounds + 1)

/-- The loop goes from one heap to another in so many rounds. It is left where the object fits, and
where the heap cannot grow. -/
inductive Enlarges (fieldCount : Nat) : (rounds : Nat) → (heap last : Heap) → Prop where
  | enough {heap : Heap} (hfits : heap.fits fieldCount = true) : Enlarges fieldCount 0 heap heap
  | stuck {heap : Heap} (hfits : heap.fits fieldCount = false) (hgrow : heap.grow? = none) :
    Enlarges fieldCount 0 heap heap
  | round {rounds : Nat} {heap bigger last : Heap} (hfits : heap.fits fieldCount = false)
    (hgrow : heap.grow? = some bigger) (rest : Enlarges fieldCount rounds bigger last) :
    Enlarges fieldCount (rounds + 1) heap last

/-- The loop ends. -/
theorem exists_enlarges (heap : Heap) (fieldCount : Nat) :
    ∃ rounds, heap.Enlarges fieldCount rounds (heap.enlarge fieldCount) := by
  induction heap using enlarge.induct fieldCount with
  | case1 heap hfits =>
    rw [enlarge_of_fits hfits]
    exact ⟨0, .enough hfits⟩
  | case2 heap hfits hgrow =>
    rw [enlarge_of_grow?_none hgrow]
    exact ⟨0, .stuck (Bool.eq_false_iff.mpr hfits) hgrow⟩
  | case3 heap hfits bigger hgrow ih =>
    obtain ⟨rounds, hrest⟩ := ih
    rw [enlarge_of_grow?_some hfits hgrow]
    exact ⟨rounds + 1, .round (Bool.eq_false_iff.mpr hfits) hgrow hrest⟩

theorem grow?_eq_doubled {heap bigger : Heap} (h : heap.grow? = some bigger) :
    bigger = { heap with capacity := heap.doubled 1 } := by
  unfold grow? at h
  split at h
  · obtain rfl := Option.some.inj h
    rw [doubled, Nat.pow_one, Nat.min_comm]
  · simp at h

/-- Doubling goes on where it stopped. -/
theorem doubled_succ (heap : Heap) (rounds : Nat) :
    doubled { heap with capacity := heap.doubled 1 } rounds = heap.doubled (rounds + 1) := by
  have hpow : 0 < 2 ^ rounds := Nat.two_pow_pos rounds
  unfold doubled
  rw [Nat.pow_one, Nat.pow_succ, Nat.mul_assoc]
  generalize hcells : 2 * max heap.capacity 1 = cells
  have hpos : 1 ≤ cells := by omega
  by_cases hle : cells ≤ indexBound
  · rw [Nat.min_eq_right hle, Nat.max_eq_left hpos]
  · -- both capacities are beyond the bound already
    have hbound : 1 ≤ indexBound := by decide
    have hleft : indexBound ≤ 2 ^ rounds * indexBound := Nat.le_mul_of_pos_left _ hpow
    have hright : cells ≤ 2 ^ rounds * cells := Nat.le_mul_of_pos_left _ hpow
    rw [Nat.min_eq_left (Nat.le_of_not_le hle), Nat.max_eq_left hbound, Nat.min_eq_left hleft,
      Nat.min_eq_left (by omega)]

theorem capacityAfter_succ (heap : Heap) (rounds : Nat) :
    capacityAfter { heap with capacity := heap.doubled 1 } rounds =
      heap.capacityAfter (rounds + 1) := by
  cases rounds with
  | zero => rfl
  | succ rounds => exact heap.doubled_succ (rounds + 1)

theorem capacityAfter_le {heap : Heap} (h : heap.capacity ≤ indexBound) (rounds : Nat) :
    heap.capacityAfter rounds ≤ indexBound := by
  cases rounds with
  | zero => exact h
  | succ rounds => exact Nat.min_le_left _ _

/-- Where doubling has not reached the bound there were less than thirty rounds. -/
theorem lt_of_doubled_lt {heap : Heap} {rounds : Nat} (h : heap.doubled rounds < indexBound) :
    rounds < 30 := by
  have hbound : indexBound = 2 ^ 30 := rfl
  have hpow : 2 ^ rounds < 2 ^ 30 := by
    calc
      2 ^ rounds ≤ 2 ^ rounds * max heap.capacity 1 :=
        Nat.le_mul_of_pos_right _ (Nat.le_max_right _ _)
      _ < 2 ^ 30 := by
        unfold doubled at h
        omega
  exact (Nat.pow_lt_pow_iff_right (Nat.lt_succ_self 1)).mp hpow

namespace Enlarges

variable {fieldCount rounds : Nat} {heap last : Heap}

/-- The loop changes the capacity alone. It is not left before the object fits or the bound is
reached. -/
theorem spec (h : heap.Enlarges fieldCount rounds last) (hcapacity : heap.capacity ≤ indexBound) :
    last = { heap with capacity := heap.capacityAfter rounds } ∧
      (∀ k < rounds, ¬ heap.FitsWithin fieldCount (heap.capacityAfter k) ∧
        heap.capacityAfter k < indexBound) ∧
      (heap.FitsWithin fieldCount (heap.capacityAfter rounds) ∨
        heap.capacityAfter rounds = indexBound) := by
  induction h with
  | enough hfits => exact ⟨rfl, by simp, .inl ((fits_iff _ _).mp hfits)⟩
  | stuck hfits hgrow =>
    exact ⟨rfl, by simp, .inr (Nat.le_antisymm hcapacity (grow?_eq_none hgrow))⟩
  | @round rounds heap bigger last hfits hgrow rest ih =>
    have hroom := (capacity_lt_of_grow? hgrow).1
    obtain rfl := grow?_eq_doubled hgrow
    obtain ⟨hlast, hbefore, hleft⟩ := ih (Nat.min_le_left _ _)
    rw [capacityAfter_succ] at hlast hleft
    refine ⟨hlast, fun k hk ↦ ?_, hleft⟩
    cases k with
    | zero =>
      refine ⟨fun hwithin ↦ ?_, hroom⟩
      rw [(fits_iff heap fieldCount).mpr hwithin] at hfits
      cases hfits
    | succ k =>
      rw [← capacityAfter_succ]
      exact hbefore k (Nat.lt_of_succ_lt_succ hk)

theorem rounds_le (h : heap.Enlarges fieldCount rounds last)
    (hcapacity : heap.capacity ≤ indexBound) : rounds ≤ 30 := by
  rcases rounds with _ | _ | rounds
  · omega
  · omega
  · obtain ⟨-, hbefore, -⟩ := h.spec hcapacity
    have hlt := lt_of_doubled_lt (hbefore (rounds + 1) (Nat.lt_succ_self _)).2
    omega

end Enlarges

end Heap

/-! ## Making room -/

/-- Where a heap may grow, and an object does not fit, the loop that makes room is gone through at
most thirty times. If an object of that size fits at all, the capacity behind it is the first
double that suffices, and the object can be placed; otherwise the heap is exhausted at the greatest
capacity. Beside the capacity and the log nothing changes. -/
theorem makeRoom_firstFit {m : Machine} {fieldCount : Nat}
    (hpolicy : m.run.config.policy = .grow) (hcapacity : m.heap.capacity ≤ indexBound)
    (hfits : m.heap.fits fieldCount = false) :
    ∃ rounds ≤ 30, m.heap.Enlarges fieldCount rounds (m.heap.enlarge fieldCount) ∧
      (m.heap.used + headerCells + fieldCount ≤ indexBound →
        ∃ log, Exec.makeRoom fieldCount m = .ok () (m.withRoom log (m.heap.doubled rounds)) ∧
          1 ≤ rounds ∧ m.heap.FitsWithin fieldCount (m.heap.doubled rounds) ∧
          (∀ k, 1 ≤ k → k < rounds → ¬ m.heap.FitsWithin fieldCount (m.heap.doubled k)) ∧
          ∀ shape (fields : Array Word), fields.size = fieldCount → ∃ reference m',
            Exec.alloc shape fields (m.withRoom log (m.heap.doubled rounds)) =
              .ok reference m') ∧
      (indexBound < m.heap.used + headerCells + fieldCount →
        ∃ log, Exec.makeRoom fieldCount m =
          .error (.failed ⟨.exhausted .heap indexBound, {}⟩) (m.withRoom log indexBound)) := by
  obtain ⟨rounds, hloop⟩ := m.heap.exists_enlarges fieldCount
  obtain ⟨hlast, hbefore, hleft⟩ := hloop.spec hcapacity
  obtain ⟨log, hroom⟩ := Exec.makeRoom_eq_enlarge hpolicy fieldCount
  rw [hlast] at hroom
  refine ⟨rounds, hloop.rounds_le hcapacity, hloop, fun hwithin ↦ ?_, fun hbeyond ↦ ?_⟩
  · have hfit : m.heap.FitsWithin fieldCount (m.heap.capacityAfter rounds) := by
      rcases hleft with hfit | hbound
      · exact hfit
      · rw [hbound]
        exact hwithin
    cases rounds with
    | zero =>
      rw [(m.heap.fits_iff fieldCount).mpr hfit] at hfits
      cases hfits
    | succ rounds =>
      rw [if_pos ((Heap.fits_iff _ _).mpr hfit)] at hroom
      refine ⟨log, hroom, Nat.succ_pos _, hfit, ?_, ?_⟩
      · intro k hpos hk
        have hk' := (hbefore k hk).1
        cases k with
        | zero => cases hpos
        | succ k => exact hk'
      · rintro shape fields rfl
        have hused : m.heap.used < indexBound := by
          unfold headerCells at hwithin
          omega
        exact ⟨_, _, Exec.alloc_of_fits hfit (if_pos hused)⟩
  · have hmisfit : ¬ m.heap.FitsWithin fieldCount (m.heap.capacityAfter rounds) := by
      intro hfit
      have hle := hfit.mono (Heap.capacityAfter_le hcapacity rounds)
      exact Nat.not_le_of_lt hbeyond hle
    rw [if_neg (fun hfit ↦ hmisfit ((Heap.fits_iff _ _).mp hfit))] at hroom
    rw [hleft.resolve_left hmisfit] at hroom
    exact ⟨log, hroom⟩

/-- A machine whose heap has no cells, and may have as many as there are references. -/
def cellless : Machine :=
  .new (.new { heapSize := 0, policy := .grow }) ⟨0, "main", .bytecode default⟩ default

/-- Three doublings make room for three fields, and none makes room for too many. -/
theorem cellless_firstFit :
    cellless.run.config.policy = .grow ∧ cellless.heap.capacity = 0 ∧
      cellless.heap.fits 3 = false ∧ cellless.heap.fits indexBound = false ∧
      (∃ log, Exec.makeRoom 3 cellless = .ok () (cellless.withRoom log 8)) ∧
      ∃ log, Exec.makeRoom indexBound cellless =
        .error (.failed ⟨.exhausted .heap indexBound, {}⟩) (cellless.withRoom log indexBound) := by
  have hpolicy : cellless.run.config.policy = .grow := rfl
  have hcapacity : cellless.heap.capacity ≤ indexBound := by decide
  have hfits : cellless.heap.fits 3 = false := by decide
  have hfits' : cellless.heap.fits indexBound = false := by decide
  refine ⟨hpolicy, rfl, hfits, hfits', ?_, ?_⟩
  · obtain ⟨rounds, -, -, hroom, -⟩ := makeRoom_firstFit hpolicy hcapacity hfits
    obtain ⟨log, hok, hpos, hfit, hfirst, -⟩ := hroom (by decide)
    have hthree : cellless.heap.FitsWithin 3 (cellless.heap.doubled 3) := by
      unfold Heap.FitsWithin
      decide
    have hle : rounds ≤ 3 := Nat.le_of_not_lt fun hlt ↦ hfirst 3 (by omega) hlt hthree
    unfold Heap.FitsWithin at hfit
    obtain rfl : rounds = 3 := by
      rcases (by omega : rounds = 1 ∨ rounds = 2 ∨ rounds = 3) with rfl | rfl | rfl
      · exact absurd hfit (by decide)
      · exact absurd hfit (by decide)
      · rfl
    exact ⟨log, hok⟩
  · obtain ⟨rounds, -, -, -, hroom⟩ := makeRoom_firstFit hpolicy hcapacity hfits'
    exact hroom (by decide)

end TandemScript
