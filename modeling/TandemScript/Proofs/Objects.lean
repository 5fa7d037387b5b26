import TandemScript.Proofs.Discipline

/-!
# Objects in the heap

The heap of a running machine is made of objects, one behind the other, and every word on its stack
and in its heap is a number, names an entry of the dictionary, or refers to one of these objects.
An object stays where it is and keeps its shape; writing a field changes one cell, and a new object
lies above all others.
-/

namespace TandemScript

variable {p : Program} {objects : List Placed} {callers : List Waiting} {operands steps : Nat}
  {m m' m₀ : Machine}

namespace Machine

/-- The cells of the heap in use are those of the objects, and each word there and on the stack is
a number, the place of an entry, or the start of one of the objects. -/
structure ConsistsOf (m : Machine) (objects : List Placed) : Prop where
  heap : m.heap.Sound m.run.dict objects
  stack : ∀ word ∈ m.stack, word.Valid m.run.dict objects

theorem Sound.consistsOf (h : m.Sound p objects) : m.ConsistsOf objects :=
  ⟨h.heap, h.stack⟩

/-- The machine is about to write a word through a reference to the cell. -/
def AtPut (m : Machine) (nameWord : Word) (index : Nat) (word : Word) : Prop :=
  ∃ (below : Array Word) (receiver : Word),
    m.code.fetch? m.pc = some (.instruction (.put nameWord)) ∧
    m.stack = (below.push receiver).push word ∧ receiver.view = .reference index

/-- The field of an object gets a word, and no other cell of the heap changes. -/
structure Writes (m : Machine) (o : Placed) (offset : Nat) (word : Word) (m' : Machine) : Prop where
  inside : offset < o.shape.size
  written : m'.heap.field? o offset = some word
  others : ∀ cell, cell ≠ o.cell offset → m'.heap.cells[cell]? = m.heap.cells[cell]?

theorem Sound.writes (h : m.Sound p objects) {o : Placed} (ho : o ∈ objects) {offset : Nat}
    (hoffset : offset < o.shape.size) {word : Word}
    (hheap : m'.heap = m.heap.setCell (o.cell offset) word) : m.Writes o offset word m' where
  inside := hoffset
  written := by
    rw [hheap]
    exact h.heap.field?_setCell ho hoffset word
  others cell hcell := by
    rw [hheap]
    exact Array.getElem?_setIfInBounds_ne (Ne.symm hcell)

namespace Framed

/-- No object moves, however far the run goes. -/
theorem exists_after {count : Nat} (h : m.Framed p objects callers operands)
    (hafter : m.after (Function.callWithin steps) count = some m') :
    ∃ later callers' operands', m'.Framed p (objects ++ later) callers' operands' := by
  induction count generalizing m' with
  | zero =>
    obtain rfl := Option.some.inj hafter
    exact ⟨[], callers, operands, by rwa [List.append_nil]⟩
  | succ count ih =>
    obtain ⟨m₁, hafter₁, hnext⟩ := Option.bind_eq_some_iff.mp hafter
    obtain ⟨later, callers₁, operands₁, h₁⟩ := ih hafter₁
    obtain ⟨_, callers₂, operands₂, ⟨more, rfl⟩, h₂, -⟩ := h₁.goes (goes_of_next? hnext)
    rw [List.append_assoc] at h₂
    exact ⟨later ++ more, callers₂, operands₂, h₂⟩

/-- What a run ends with is one of the words that the machine holds. -/
theorem result_valid (h : m.Framed p objects callers operands) {result : Word}
    (hstep : Exec.step (Function.callWithin steps) m = .ok (some result) m') :
    m'.ConsistsOf objects ∧ result.Valid m'.run.dict objects := by
  rcases h.next_or_final with hnext | ⟨-, found, m'', hfinal⟩
  · cases (hnext.of_callWithin hstep).1
  · cases (hfinal.step _).symm.trans hstep
    exact ⟨hfinal.sound.consistsOf, hfinal.result⟩

/-- A write through a reference that succeeds changes the field that it names. -/
theorem writes_of_put (h : m.Framed p objects callers operands) {nameWord word : Word}
    {index : Nat} (hput : m.AtPut nameWord index word)
    (hgoes : m.Goes (Function.callWithin steps) m') :
    ∃ o ∈ objects, ∃ name offset, o.start = index ∧ m.run.dict.string nameWord = .ok name ∧
      o.shape.slot? name = some offset ∧ m.Writes o offset word m' := by
  obtain ⟨below, receiver, hfetch, hstack, hview⟩ := hput
  have hs := h.toSound
  have hreceiver : receiver.Valid m.run.dict objects :=
    ((hs.of_push hstack).1.of_push rfl).2
  unfold Word.Valid at hreceiver
  simp only [hview] at hreceiver
  obtain ⟨o, ho, rfl⟩ := hreceiver
  obtain ⟨_, _, _, _, _, -, hcode, heffect⟩ := h.flows.exists_effect hfetch rfl (by simp)
  cases heffect with
  | put hname =>
    have hname := hs.grows.value hname
    have hnext : Next (fun _ _ ↦ True) (fun m' ↦ ∃ o' ∈ objects, ∃ name offset,
        o'.start = o.start ∧ m.run.dict.string nameWord = .ok name ∧
        o'.shape.slot? name = some offset ∧ m.Writes o' offset word m') m := by
      refine .putObject hs hcode hname hstack ho hview ?_ fun _ ↦ trivial
      rintro offset hslot _ rfl -
      exact ⟨o, ho, _, offset, rfl, Dictionary.string_of_value hname, hslot,
        hs.writes ho (Shape.lt_of_slot? hslot) rfl⟩
    exact (hnext.of_callWithin hgoes).2

/-- A new object changes no cell that was in use. -/
theorem keeps_of_new (h : m.Framed p objects callers operands) {shapeWord : Word}
    (hfetch : m.code.fetch? m.pc = some (.instruction (.new shapeWord)))
    (hgoes : m.Goes (Function.callWithin steps) m') :
    ∀ cell < m.heap.used, m'.heap.cells[cell]? = m.heap.cells[cell]? := by
  have hs := h.toSound
  have hsize := h.size
  obtain ⟨_, _, _, _, _, rfl, hcode, heffect⟩ := h.flows.exists_effect hfetch rfl (by simp)
  cases heffect with
  | @new _ shape hshape =>
    have hle : shape.size ≤ m.stack.size := by omega
    obtain ⟨below, fields, hstack, hfields⟩ := Array.exists_append_of_le hle
    have hnext : Next (fun _ _ ↦ True)
        (fun m' ↦ ∀ cell < m.heap.used, m'.heap.cells[cell]? = m.heap.cells[cell]?) m := by
      refine .new (fun _ _ _ ↦ trivial) hs hcode (hs.grows.shape hshape) hfields hstack ?_
      rintro _ _ capacity _ - rfl - cell hcell
      exact Heap.Holds.getElem?_add { m.heap with capacity } shapeWord fields hcell
    exact (hnext.of_callWithin hgoes).2

end Framed

end Machine

/-- In every state that the run of an accepted script comes to, the heap is made of objects and
every word is valid. The objects are still there, at the same places and with the same shapes, in
all later states; a write through a reference changes the one field that it names, and a new
object leaves all cells in use as they are. -/
theorem heap_consists_of_objects {script : Script} {config : Config} {level : Option Level}
    {main : Function} {pool : Pool} (h : script.Accepted config level main pool)
    (hentered : script.entered? config level = some m₀) {count : Nat}
    (hafter : m₀.after (Function.callWithin steps) count = some m) :
    ∃ objects, m.ConsistsOf objects ∧
      (∀ more m', m.after (Function.callWithin steps) more = some m' →
        ∃ later, m'.ConsistsOf (objects ++ later)) ∧
      (∀ result m', Exec.step (Function.callWithin steps) m = .ok (some result) m' →
        m'.ConsistsOf objects ∧ result.Valid m'.run.dict objects) ∧
      (∀ nameWord index word m', m.AtPut nameWord index word →
        m.Goes (Function.callWithin steps) m' →
        ∃ o ∈ objects, ∃ name offset, o.start = index ∧ m.run.dict.string nameWord = .ok name ∧
          o.shape.slot? name = some offset ∧ m.Writes o offset word m') ∧
      (∀ shapeWord m', m.code.fetch? m.pc = some (.instruction (.new shapeWord)) →
        m.Goes (Function.callWithin steps) m' →
        ∀ cell < m.heap.used, m'.heap.cells[cell]? = m.heap.cells[cell]?) := by
  obtain ⟨objects, callers, operands, hm⟩ := (h.framed hentered).1.exists_after hafter
  refine ⟨_, hm.consistsOf, ?_, ?_, ?_, ?_⟩
  · intro more m' hmore
    obtain ⟨later, callers', operands', hm'⟩ := hm.exists_after hmore
    exact ⟨later, hm'.consistsOf⟩
  · exact fun _ _ hstep ↦ hm.result_valid hstep
  · exact fun _ _ _ _ hput hgoes ↦ hm.writes_of_put hput hgoes
  · exact fun _ _ hfetch hgoes ↦ hm.keeps_of_new hfetch hgoes

/-- The cell of the object that the machine is about to write to. -/
def Machine.target? (m : Machine) : Option Nat :=
  match m.code.fetch? m.pc, m.stack.pop.back? with
  | some (.instruction (.put _)), some receiver =>
    match receiver.view with
    | .reference index => some index
    | _ => none
  | _, _ => none

theorem Machine.atPut_of_target? {index : Nat} (h : m.target? = some index) :
    ∃ nameWord word, m.AtPut nameWord index word := by
  unfold Machine.target? at h
  split at h
  · next nameWord receiver hfetch hreceiver =>
    obtain ⟨below, hpop⟩ := Array.back?_eq_some_iff.mp hreceiver
    have hpos : 0 < m.stack.size := by
      have hsize := congrArg Array.size hpop
      rw [Array.size_pop, Array.size_push] at hsize
      omega
    obtain ⟨upper, word, hstack⟩ := Array.exists_push_of_size_pos hpos
    rw [hstack, Array.pop_push] at hpop
    subst hpop
    split at h
    · next found hview =>
      obtain rfl := Option.some.inj h
      exact ⟨nameWord, word, below, receiver, hfetch, hstack, hview⟩
    · cases h
  · cases h

/-- A program that creates two objects and writes a field of the first one. -/
def twoObjects : Script :=
  .ofList [.declare "a" (.objectOf [("x", .int 1), ("y", .int 2)]),
    .declare "b" (.objectOf [("up", .read "a")]),
    .put (.get (.read "b") "up") "y" (.read "b"),
    .returning (.read "a")]

theorem twoObjects_heap_consists_of_objects :
    ∃ main pool m₀ m nameWord word m' objects, twoObjects.Accepted {} none main pool ∧
      twoObjects.entered? {} none = some m₀ ∧ m₀.after (Function.callWithin 1) 10 = some m ∧
      m.AtPut nameWord 0 word ∧ m.Goes (Function.callWithin 1) m' ∧ m.ConsistsOf objects ∧
      (∃ later, m'.ConsistsOf (objects ++ later)) ∧
      ∃ o ∈ objects, ∃ name offset, o.start = 0 ∧ m.run.dict.string nameWord = .ok name ∧
        o.shape.slot? name = some offset ∧ m.Writes o offset word m' := by
  have hcheck : twoObjects.isAccepted none = true := by decide +kernel
  have hput : (twoObjects.stateAfter 10).map Machine.target? = some (some 0) := by decide +kernel
  have hlater : (twoObjects.stateAfter 11).isSome = true := by decide +kernel
  obtain ⟨main, pool, h⟩ := Script.accepted_of_check hcheck {}
  obtain ⟨m', hstate⟩ := Option.isSome_iff_exists.mp hlater
  obtain ⟨m₀, hentered, hafter'⟩ := Option.bind_eq_some_iff.mp hstate
  obtain ⟨m, hafter, hnext⟩ := Option.bind_eq_some_iff.mp hafter'
  simp only [Script.stateAfter, hentered, Option.bind_some, hafter, Option.map_some,
    Option.some.injEq] at hput
  obtain ⟨nameWord, word, hatPut⟩ := Machine.atPut_of_target? hput
  have hgoes := Machine.goes_of_next? hnext
  obtain ⟨objects, hobjects, hlater, -, hwrites, -⟩ := heap_consists_of_objects h hentered hafter
  exact ⟨main, pool, m₀, m, nameWord, word, m', objects, h, hentered, hafter, hatPut, hgoes,
    hobjects, hlater 1 m' hnext, hwrites nameWord 0 word m' hatPut hgoes⟩

end TandemScript
