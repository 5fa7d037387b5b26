import TandemScript.Machine.Step
import TandemScript.Proofs.Computation

/-!
# Room for objects

A heap that is asked for more than it has grows until the object fits or until references reach no
further. Placing an object therefore succeeds exactly when the object fits into the greatest heap
that the limits allow, and what it changes is the heap and the log only.
-/

namespace TandemScript

/-- A resource ran out. -/
def Failure.IsExhaustion (failure : Failure) : Prop :=
  ∃ resource capacity, failure.cause = .exhausted resource capacity

/-- The run was stopped because a resource ran out. -/
def Stop.IsExhaustion : Stop → Prop
  | .failed failure => failure.IsExhaustion
  | .unfinished => False

theorem Stop.IsExhaustion.mapFailure {note : Failure → Failure}
    (hnote : ∀ failure, (note failure).cause = failure.cause) {stop : Stop}
    (h : stop.IsExhaustion) : (stop.mapFailure note).IsExhaustion := by
  cases stop with
  | failed failure =>
    obtain ⟨resource, capacity, hcause⟩ := h
    exact ⟨resource, capacity, (hnote failure).trans hcause⟩
  | unfinished => exact h

theorem Failure.cause_noteOp (failure : Failure) (op : String) :
    (failure.noteOp op).cause = failure.cause := rfl

theorem Failure.cause_noteFunction (failure : Failure) (function : String) :
    (failure.noteFunction function).cause = failure.cause := rfl

theorem Failure.cause_noteLine (failure : Failure) (line : UInt32) :
    (failure.noteLine line).cause = failure.cause := by
  unfold noteLine
  split <;> rfl

namespace Heap

/-- An object with so many fields would end below the given capacity. -/
def FitsWithin (heap : Heap) (fieldCount capacity : Nat) : Prop :=
  heap.used + headerCells + fieldCount ≤ capacity

theorem FitsWithin.mono {heap : Heap} {fieldCount capacity capacity' : Nat}
    (h : heap.FitsWithin fieldCount capacity) (hle : capacity ≤ capacity') :
    heap.FitsWithin fieldCount capacity' :=
  Nat.le_trans h hle

theorem fits_iff (heap : Heap) (fieldCount : Nat) :
    heap.fits fieldCount = true ↔ heap.FitsWithin fieldCount heap.capacity := by
  unfold fits FitsWithin
  exact decide_eq_true_iff

theorem grow?_eq_some {heap bigger : Heap} (h : heap.grow? = some bigger) :
    ∃ capacity, bigger = { heap with capacity } ∧ heap.capacity < capacity ∧
      capacity ≤ indexBound := by
  have hlt := (capacity_lt_of_grow? h).2
  unfold grow? at h
  split at h
  · obtain rfl := Option.some.inj h
    exact ⟨_, rfl, hlt, Nat.min_le_right _ _⟩
  · simp at h

theorem grow?_eq_none {heap : Heap} (h : heap.grow? = none) : indexBound ≤ heap.capacity := by
  unfold grow? at h
  split at h
  · simp at h
  · omega

theorem enlarge_of_fits {heap : Heap} {fieldCount : Nat} (h : heap.fits fieldCount = true) :
    heap.enlarge fieldCount = heap := by
  rw [enlarge, if_pos h]

theorem enlarge_of_grow?_none {heap : Heap} {fieldCount : Nat} (h : heap.grow? = none) :
    heap.enlarge fieldCount = heap := by
  rw [enlarge]
  split
  · rfl
  · split
    · rfl
    · simp_all

theorem enlarge_of_grow?_some {heap bigger : Heap} {fieldCount : Nat}
    (hfits : ¬ heap.fits fieldCount = true) (h : heap.grow? = some bigger) :
    heap.enlarge fieldCount = bigger.enlarge fieldCount := by
  rw [enlarge, if_neg hfits]
  split
  · simp_all
  · simp_all

/-- Growing changes the capacity alone, never beyond the bound of references, and far enough for
every object that fits below this bound. -/
theorem enlarge_spec (heap : Heap) (fieldCount : Nat) :
    ∃ capacity, heap.enlarge fieldCount = { heap with capacity } ∧
      heap.capacity ≤ capacity ∧ capacity ≤ max heap.capacity indexBound ∧
      (heap.FitsWithin fieldCount (max heap.capacity indexBound) →
        heap.FitsWithin fieldCount capacity) := by
  induction heap using enlarge.induct fieldCount with
  | case1 heap hfits =>
    have hwithin := (heap.fits_iff fieldCount).mp hfits
    rw [enlarge_of_fits hfits]
    exact ⟨heap.capacity, rfl, Nat.le_refl _, Nat.le_max_left _ _, fun _ ↦ hwithin⟩
  | case2 heap hfits hgrow =>
    have hbound := grow?_eq_none hgrow
    rw [enlarge_of_grow?_none hgrow]
    refine ⟨heap.capacity, rfl, Nat.le_refl _, Nat.le_max_left _ _, fun hwithin ↦ ?_⟩
    exact hwithin.mono (Nat.max_le.mpr ⟨Nat.le_refl _, hbound⟩)
  | case3 heap hfits bigger hgrow ih =>
    obtain ⟨middle, rfl, hlt, hle⟩ := grow?_eq_some hgrow
    obtain ⟨capacity, henlarge, hmiddle, hcapacity, hwithin⟩ := ih
    rw [enlarge_of_grow?_some hfits hgrow]
    simp only at hmiddle hcapacity hwithin
    refine ⟨capacity, henlarge, by omega, by omega, fun h ↦ hwithin (h.mono ?_)⟩
    omega

end Heap

namespace Machine

/-- The greatest capacity that the heap of a machine can have or be given. -/
def heapLimit (m : Machine) : Nat :=
  match m.run.config.policy with
  | .abort => m.heap.capacity
  | .grow => max m.heap.capacity indexBound

/-- The machine with another log and another capacity of its heap. -/
def withRoom (m : Machine) (log : Log) (capacity : Nat) : Machine :=
  { m with run := { m.run with log }, heap := { m.heap with capacity } }

end Machine

namespace Exec

theorem of_pop_ok {result : Word} {m m' : Machine} (h : pop m = .ok result m') :
    m.stack.back? = some result ∧ m' = { m with stack := m.stack.pop } := by
  unfold pop at h
  split at h
  · next hback =>
    obtain ⟨rfl, rfl⟩ := EStateM.Result.ok.inj h
    exact ⟨hback, rfl⟩
  · simp at h

/-- An event only changes the log. -/
theorem report_eq (level : Level) (event : Machine → Event) (m : Machine) :
    ∃ log, report level event m = .ok () { m with run := { m.run with log } } := by
  unfold report
  split
  · exact ⟨_, rfl⟩
  · exact ⟨m.run.log, rfl⟩

/-- Making room begins with two reports. -/
theorem makeRoom_reports (m : Machine) (fieldCount : Nat) :
    ∃ log, makeRoom fieldCount m =
      match m.run.config.policy with
      | .abort => .error (.failed m.heapExhausted) { m with run := { m.run with log } }
      | .grow =>
        let m := { m with run := { m.run with log }, heap := m.heap.enlarge fieldCount }
        if m.heap.fits fieldCount then
          (report .debug fun m ↦ .heapGrown m.heap.capacity) m
        else .error (.failed m.heapExhausted) m := by
  obtain ⟨log₁, h₁⟩ := report_eq .warn
    (fun m ↦ .heapExhausted m.heap.used m.heap.capacity m.run.config.policy) m
  obtain ⟨log₂, h₂⟩ := report_eq .trace (fun m ↦ .heapContents m.heapDump)
    { m with run := { m.run with log := log₁ } }
  exact ⟨log₂, (bind_of_ok h₁).trans (bind_of_ok h₂)⟩

/-- No room is made in a heap that may not grow. -/
theorem makeRoom_eq_abort {m : Machine} (hpolicy : m.run.config.policy = .abort)
    (fieldCount : Nat) :
    ∃ log, makeRoom fieldCount m =
      .error (.failed m.heapExhausted) { m with run := { m.run with log } } := by
  obtain ⟨log, hreports⟩ := makeRoom_reports m fieldCount
  simp only [hpolicy] at hreports
  exact ⟨log, hreports⟩

/-- Where the heap may grow, making room is the loop between two reports. -/
theorem makeRoom_eq_enlarge {m : Machine} (hpolicy : m.run.config.policy = .grow)
    (fieldCount : Nat) :
    ∃ log, makeRoom fieldCount m =
      if (m.heap.enlarge fieldCount).fits fieldCount then
        .ok () { m with run := { m.run with log }, heap := m.heap.enlarge fieldCount }
      else
        .error (.failed ⟨.exhausted .heap (m.heap.enlarge fieldCount).capacity, {}⟩)
          { m with run := { m.run with log }, heap := m.heap.enlarge fieldCount } := by
  obtain ⟨log, hreports⟩ := makeRoom_reports m fieldCount
  obtain ⟨log', hgrown⟩ := report_eq .debug (fun m ↦ .heapGrown m.heap.capacity)
    { m with run := { m.run with log }, heap := m.heap.enlarge fieldCount }
  simp only [hreports, hpolicy]
  split
  · exact ⟨log', hgrown⟩
  · exact ⟨log, rfl⟩

/-- Where an object does not fit, making room for it succeeds if the limit of the heap allows. -/
theorem makeRoom_spec {m : Machine} {fieldCount : Nat} (hfits : ¬ m.heap.fits fieldCount = true) :
    (∃ log capacity, makeRoom fieldCount m = .ok () (m.withRoom log capacity) ∧
      m.heap.FitsWithin fieldCount capacity ∧ m.heap.capacity ≤ capacity ∧
      capacity ≤ m.heapLimit) ∨
    ∃ failure log capacity,
      makeRoom fieldCount m = .error (.failed failure) (m.withRoom log capacity) ∧
      failure.IsExhaustion ∧ ¬ m.heap.FitsWithin fieldCount m.heapLimit := by
  have hwithin : ¬ m.heap.FitsWithin fieldCount m.heap.capacity :=
    fun h ↦ hfits ((m.heap.fits_iff fieldCount).mpr h)
  cases hpolicy : m.run.config.policy with
  | abort =>
    obtain ⟨log, habort⟩ := makeRoom_eq_abort hpolicy fieldCount
    refine .inr ⟨m.heapExhausted, log, m.heap.capacity, habort, ⟨_, _, rfl⟩, ?_⟩
    simpa only [Machine.heapLimit, hpolicy] using hwithin
  | grow =>
    obtain ⟨log, hgrow⟩ := makeRoom_eq_enlarge hpolicy fieldCount
    obtain ⟨capacity, henlarge, hle, hbound, hgrown⟩ := m.heap.enlarge_spec fieldCount
    rw [henlarge] at hgrow
    have hlimit : m.heapLimit = max m.heap.capacity indexBound := by
      simp only [Machine.heapLimit, hpolicy]
    by_cases hroom : ({ m.heap with capacity } : Heap).fits fieldCount = true
    · rw [if_pos hroom] at hgrow
      exact .inl ⟨log, capacity, hgrow, (Heap.fits_iff _ fieldCount).mp hroom, hle,
        hlimit ▸ hbound⟩
    · rw [if_neg hroom] at hgrow
      refine .inr ⟨_, log, capacity, hgrow, ⟨_, _, rfl⟩, fun h ↦ hroom ?_⟩
      exact (Heap.fits_iff _ fieldCount).mpr (hgrown (hlimit ▸ h))

theorem alloc_of_fits {m : Machine} {shape : Word} {fields : Array Word}
    (h : m.heap.FitsWithin fields.size m.heap.capacity) {reference : Word}
    (hreference : Word.reference? m.heap.used = some reference) :
    alloc shape fields m = .ok reference { m with heap := m.heap.add shape fields } := by
  unfold alloc Heap.alloc? Heap.place?
  rw [if_pos ((m.heap.fits_iff _).mpr h), hreference]

theorem alloc_of_not_referable {m : Machine} {shape : Word} {fields : Array Word}
    (h : Word.reference? m.heap.used = none) :
    alloc shape fields m = .error (.failed m.heapExhausted) m := by
  unfold alloc Heap.alloc? Heap.place?
  rw [h]
  cases m.heap.fits fields.size <;> rfl

/-- Placing an object allocates it in a heap with room for it, or the heap is exhausted. -/
theorem place_eq (m : Machine) (shape : Word) (fields : Array Word) :
    (∃ log capacity, place shape fields m = alloc shape fields (m.withRoom log capacity) ∧
      m.heap.FitsWithin fields.size capacity ∧ m.heap.capacity ≤ capacity ∧
      capacity ≤ m.heapLimit) ∨
    ∃ failure log capacity,
      place shape fields m = .error (.failed failure) (m.withRoom log capacity) ∧
      failure.IsExhaustion ∧ ¬ m.heap.FitsWithin fields.size m.heapLimit := by
  unfold place
  simp only [bind, EStateM.bind, read]
  by_cases hfits : m.heap.fits fields.size = true
  · have hlimit : m.heap.capacity ≤ m.heapLimit := by
      unfold Machine.heapLimit
      split <;> omega
    left
    refine ⟨m.run.log, m.heap.capacity, ?_, (m.heap.fits_iff _).mp hfits, Nat.le_refl _, hlimit⟩
    rw [hfits]
    rfl
  · have hfalse : m.heap.fits fields.size = false := by simpa using hfits
    rw [hfalse]
    rcases makeRoom_spec hfits with ⟨log, capacity, hroom, h⟩ | ⟨failure, log, capacity, hroom, h⟩
    · left
      exact ⟨log, capacity, bind_of_ok hroom, h⟩
    · right
      exact ⟨failure, log, capacity, bind_of_error hroom, h⟩

/-- Placing an object succeeds if it fits within the limit of the heap and its place has a
reference. Otherwise the heap is exhausted. -/
theorem place_spec (m : Machine) (shape : Word) (fields : Array Word) :
    (∃ log capacity reference, place shape fields m =
        .ok reference
          { m.withRoom log capacity with heap := { m.heap with capacity }.add shape fields } ∧
      Word.reference? m.heap.used = some reference ∧ m.heap.FitsWithin fields.size capacity ∧
      m.heap.capacity ≤ capacity ∧ capacity ≤ m.heapLimit) ∨
    ∃ failure log capacity,
      place shape fields m = .error (.failed failure) (m.withRoom log capacity) ∧
      failure.IsExhaustion ∧
      ¬ (m.heap.FitsWithin fields.size m.heapLimit ∧ (Word.reference? m.heap.used).isSome) := by
  rcases place_eq m shape fields with
    ⟨log, capacity, hplace, h⟩ | ⟨failure, log, capacity, hplace, h⟩
  · cases hreference : Word.reference? m.heap.used with
    | some reference =>
      left
      exact ⟨log, capacity, reference, hplace.trans (alloc_of_fits h.1 hreference), rfl, h⟩
    | none =>
      right
      refine ⟨_, log, capacity, hplace.trans (alloc_of_not_referable hreference), ⟨_, _, rfl⟩, ?_⟩
      simp
  · right
    exact ⟨failure, log, capacity, hplace, h.1, fun hroom ↦ h.2 hroom.1⟩

end Exec

end TandemScript
