import TandemScript.Proofs.Canonical
import TandemScript.Proofs.MachineLockstep

/-!
# Clean machines

A machine is clean if its run is trusted and all words on its stack and in its heap are canonical.
Every instruction that names what it should keeps the machine clean, wherever its words come from:
constants, variables, fields, global names, or values that a function outside the machine answered.
It takes some operands, leaves some in their place, and changes no other cell of the stack but those
of the variables.
-/

namespace TandemScript

theorem Array.mem_of_mem_shrink {α : Type} {xs : Array α} {count : Nat} {a : α}
    (h : a ∈ xs.shrink count) : a ∈ xs := by
  obtain ⟨index, hindex⟩ := Array.mem_iff_getElem?.mp h
  obtain ⟨hlt, rfl⟩ := Array.getElem?_eq_some_iff.mp hindex
  rw [Array.getElem_shrink]
  exact Array.getElem_mem _

/-- The run is trusted, and all words are canonical. -/
structure Machine.Clean (lib : Library) (m : Machine) : Prop where
  run : m.run.Trusted lib
  stack : ∀ word ∈ m.stack, word.Canonical m.run.dict
  heap : ∀ word ∈ m.heap.cells, word.Canonical m.run.dict

/-- The clean machine is in the same activation as one before, at the same position. So many
operands were taken and so many left, and no cell was changed below those but variables. -/
structure Machine.Works (lib : Library) (m : Machine) (taken left : Nat) (m' : Machine) : Prop
    extends m'.Clean lib where
  size : m'.stack.size + taken = m.stack.size + left
  kept : ∀ index, index + taken < m.stack.size → index < m.bp ∨ m.bp + m.code.slots ≤ index →
    m'.stack[index]? = m.stack[index]?
  bp : m'.bp = m.bp
  pc : m'.pc = m.pc
  function : m'.function = m.function
  code : m'.code = m.code
  grows : m.run.dict.GrowsTo m'.run.dict

namespace Machine

variable {lib : Library} {m m' : Machine} {taken left : Nat}

namespace Clean

theorem undefined (h : m.Clean lib) : Word.undefined.Canonical m.run.dict :=
  .undefined (h.run.grows.get? lib.undefined)

theorem getElem? (h : m.Clean lib) {index : Nat} {word : Word}
    (hword : m.stack[index]? = some word) : word.Canonical m.run.dict :=
  h.stack word (Array.mem_of_getElem? hword)

theorem withStack (h : m.Clean lib) {stack : Array Word}
    (hstack : ∀ word ∈ stack, word.Canonical m.run.dict) : Clean lib { m with stack } :=
  { h with stack := hstack }

theorem withRun (h : m.Clean lib) {st : RunState} (hst : st.Trusted lib)
    (hgrows : m.run.dict.GrowsTo st.dict) : Clean lib { m with run := st } :=
  ⟨hst, fun word hword ↦ (h.stack word hword).mono hgrows,
    fun word hword ↦ (h.heap word hword).mono hgrows⟩

theorem refl (h : m.Clean lib) : m.Works lib 0 0 m :=
  ⟨h, rfl, fun _ _ _ ↦ rfl, rfl, rfl, rfl, rfl, .refl _⟩

end Clean

namespace Works

theorem withRun (h : m.Works lib taken left m') {st : RunState} (hst : st.Trusted lib)
    (hgrows : m'.run.dict.GrowsTo st.dict) : m.Works lib taken left { m' with run := st } :=
  { h with toClean := h.toClean.withRun hst hgrows, grows := h.grows.trans hgrows }

theorem withHeap (h : m.Works lib taken left m') {heap : Heap}
    (hheap : ∀ word ∈ heap.cells, word.Canonical m'.run.dict) :
    m.Works lib taken left { m' with heap } :=
  { h with heap := hheap }

theorem push (h : m.Works lib taken left m') {word : Word} (hword : word.Canonical m'.run.dict) :
    m.Works lib taken (left + 1) { m' with stack := m'.stack.push word } := by
  have hsize := h.size
  refine { h with toClean := h.toClean.withStack fun other hother ↦ ?_, size := ?_, kept := ?_ }
  · rcases Array.mem_push.mp hother with hold | rfl
    · exact h.stack other hold
    · exact hword
  · rw [Array.size_push]
    omega
  · intro index hindex houtside
    rw [← h.kept index hindex houtside, Array.getElem?_push, if_neg (by omega)]

theorem shrink (h : m.Works lib taken 0 m') {count : Nat} (hcount : count ≤ m'.stack.size) :
    m.Works lib (taken + count) 0
      { m' with stack := m'.stack.shrink (m'.stack.size - count) } := by
  have hsize := h.size
  refine { h with toClean := h.toClean.withStack fun other hother ↦ ?_, size := ?_, kept := ?_ }
  · exact h.stack other (Array.mem_of_mem_shrink hother)
  · rw [Array.size_shrink]
    omega
  · intro index hindex houtside
    have hlt : index < (m'.stack.shrink (m'.stack.size - count)).size := by
      rw [Array.size_shrink]
      omega
    rw [← h.kept index (by omega) houtside, Array.getElem?_eq_getElem hlt, Array.getElem_shrink,
      ← Array.getElem?_eq_getElem]

theorem setVariable (h : m.Works lib taken left m') {slot : Nat} (hslot : slot < m.code.slots)
    {word : Word} (hword : word.Canonical m'.run.dict) :
    m.Works lib taken left
      { m' with stack := m'.stack.setIfInBounds (m.bp + slot) word } := by
  refine { h with toClean := h.toClean.withStack fun other hother ↦ ?_, size := ?_, kept := ?_ }
  · rcases Array.mem_or_eq_of_mem_setIfInBounds hother with hold | rfl
    · exact h.stack other hold
    · exact hword
  · rw [Array.size_setIfInBounds]
    exact h.size
  · intro index hindex houtside
    rw [← h.kept index hindex houtside, Array.getElem?_setIfInBounds_ne (by omega)]

/-- An operand that was read but not taken may as well have been taken and left again. -/
theorem weaken (h : m.Works lib taken left m') : m.Works lib (taken + 1) (left + 1) m' := by
  refine { h with size := ?_, kept := fun index hindex ↦ h.kept index (by omega) }
  have hsize := h.size
  omega

end Works

end Machine

/-! ## Operations -/

namespace Exec

variable {lib : Library} {m m' : Machine} {taken left : Nat} {α : Type}

theorem query_ensures (f : Machine → Except Failure α) (m : Machine) :
    Ensures (query f) m (fun a m' ↦ f m = .ok a ∧ m = m') fun _ _ ↦ True := by
  unfold Ensures query
  cases f m with
  | ok a => exact ⟨rfl, rfl⟩
  | error failure => trivial

theorem push_works (h : m.Works lib taken left m') {word : Word}
    (hword : word.Canonical m'.run.dict) :
    Ensures (push word) m' (fun _ m'' ↦ m.Works lib taken (left + 1) m'') fun _ _ ↦ True := by
  refine (push_spec m' word).mono ?_ fun _ _ _ ↦ trivial
  rintro _ _ ⟨rfl, -⟩
  exact h.push hword

theorem pop_works (h : m.Works lib taken 0 m') :
    Ensures pop m'
      (fun word m'' ↦ word.Canonical m''.run.dict ∧ m.Works lib (taken + 1) 0 m'' ∧
        m''.run = m'.run)
      fun _ _ ↦ True := by
  unfold Ensures
  cases hpop : pop m' with
  | error stop m'' => trivial
  | ok word m'' =>
    obtain ⟨hback, rfl⟩ := of_pop_ok hpop
    have hmem := Array.mem_of_back? hback
    have hpos := Array.size_pos_of_mem hmem
    have hshrink := h.shrink hpos
    rw [Array.shrink_eq_take] at hshrink
    refine ⟨h.stack word hmem, ?_, rfl⟩
    have hlast : m'.stack.pop = m'.stack.take (m'.stack.size - 1) := by
      simp
    simpa only [hlast] using hshrink

theorem decode_works (h : m.Works lib taken left m') (word : Word) :
    Ensures (decode word) m'
      (fun value m'' ↦ value.IsTrusted lib ∧ m.Works lib taken left m'') fun _ _ ↦ True := by
  have hspec := decode_trusted h.run.entries m'.heap word h.run.records
  unfold Ensures at hspec ⊢
  rw [decode_eq]
  cases hdecode : TandemScript.decode m'.run.dict m'.heap word m'.run.records with
  | error failure records => trivial
  | ok value records =>
    rw [hdecode] at hspec
    exact ⟨hspec.1, h.withRun { h.run with records := hspec.2 } (.refl _)⟩

theorem encode_works (h : m.Works lib taken left m') {value : Value}
    (hvalue : value.IsTrusted lib) :
    Ensures (encode value) m'
      (fun word m'' ↦ word.Canonical m''.run.dict ∧ m.Works lib taken left m'')
      fun _ _ ↦ True := by
  have hspec := encode_canonical hvalue m'.run.records m'.heap m'.run.dict
  unfold Ensures at hspec ⊢
  unfold encode
  simp only [onRun_apply, Run.onDict_apply]
  cases hencode : TandemScript.encode m'.run.records m'.heap value m'.run.dict with
  | error failure dict => trivial
  | ok word dict =>
    rw [hencode] at hspec
    have hst : RunState.Trusted lib { m'.run with dict } :=
      { h.run with grows := h.run.grows.trans hspec.grows, entries := hspec.entries h.run.entries }
    exact ⟨hspec.canonical, h.withRun hst hspec.grows⟩

/-- The word of the function that runs names this function. -/
theorem internFunction_works (h : m.Works lib taken left m') {f : Function}
    (hf : lib.function? f.id = some f) :
    Ensures (onRun (Run.onDict (Dictionary.intern (.function f)))) m'
      (fun word m'' ↦ m''.run.dict.value word = .ok (.function f) ∧
        word.Canonical m''.run.dict ∧ m.Works lib taken left m'' ∧ m''.stack = m'.stack)
      fun _ _ ↦ True := by
  unfold Ensures
  simp only [onRun_apply, Run.onDict_apply]
  rcases Dictionary.intern_spec (.function f) m'.run.dict with
    ⟨word, dict, found, hintern, hspec⟩ | ⟨hfull, -⟩
  · rw [hintern]
    have hentries (index : Nat) (value : Value) (hvalue : dict.get? index = some value) :
        value.IsTrusted lib := by
      rcases hspec.added index value hvalue with hold | rfl
      · exact h.run.entries index value hold
      · exact .of_library hf
    have hst : RunState.Trusted lib { m'.run with dict } :=
      { h.run with grows := h.run.grows.trans hspec.grows, entries := hentries }
    obtain ⟨g, rfl, hid⟩ := Value.function_of_sharesEntry hspec.shares
    obtain ⟨index, -, hentry⟩ := Dictionary.value_eq_ok.mp hspec.names
    obtain rfl := (hentries index _ hentry).eq_of_id hf hid
    exact ⟨hspec.names, .of_value hspec.names (by simp), h.withRun hst hspec.grows, rfl⟩
  · rw [hfull]
    trivial

theorem report_works (h : m.Works lib taken left m') (level : Level) (event : Machine → Event) :
    Ensures (report level event) m' (fun _ m'' ↦ m.Works lib taken left m'') fun _ _ ↦ True := by
  obtain ⟨log, hlog⟩ := report_eq level event m'
  exact .of_ok hlog (h.withRun { h.run with } (.refl _))

/-- What leads out of the machine and only gets trusted values comes back with a trusted one. -/
theorem onRun_works (h : m.Works lib taken left m') {P : α → Prop} {x y : Run α}
    (hx : Run.Trusting lib P x y) (hmoves : Moves RunState.Later x) :
    Coincide (onRun x) (onRun y) m' fun a m'' ↦ P a ∧ m.Works lib taken left m'' := by
  obtain ⟨hsame, hspec⟩ := hx m'.run h.run
  unfold Coincide Ensures at *
  rw [onRun_apply, onRun_apply, hsame]
  refine ⟨rfl, ?_⟩
  cases hresult : x m'.run with
  | error stop st => trivial
  | ok a st =>
    rw [hresult] at hspec
    exact ⟨hspec.1, h.withRun hspec.2 (hmoves.ok hresult).dict⟩

theorem decodeCells_works (h : m.Works lib taken left m') (index count : Nat) :
    Ensures (decodeCells index count) m'
      (fun values m'' ↦ (∀ value ∈ values, Value.IsTrusted lib value) ∧
        m.Works lib taken left m'')
      fun _ _ ↦ True := by
  induction count generalizing index m' with
  | zero => exact .pure ⟨by simp, h⟩
  | succ count ih =>
    refine (query_ensures _ m').bind ?_
    rintro word _ ⟨-, rfl⟩
    refine (decode_works h word).bind ?_
    rintro value m₁ ⟨hvalue, h₁⟩
    refine (ih h₁ (index + 1)).bind ?_
    rintro values m₂ ⟨hvalues, h₂⟩
    exact .pure ⟨List.forall_mem_cons.mpr ⟨hvalue, hvalues⟩, h₂⟩

/-! ## Objects -/

theorem place_works (h : m.Works lib taken left m') {shape : Word} {fields : Array Word}
    (hshape : shape.Canonical m'.run.dict)
    (hfields : ∀ word ∈ fields, word.Canonical m'.run.dict) :
    Ensures (place shape fields) m'
      (fun reference m'' ↦ reference.Canonical m''.run.dict ∧ m.Works lib taken left m'' ∧
        m''.stack = m'.stack)
      fun _ _ ↦ True := by
  rcases place_spec m' shape fields with
    ⟨log, capacity, reference, hplace, hreference, -⟩ | ⟨failure, log, capacity, hplace, -⟩
  · refine .of_ok hplace ⟨.reference hreference, ?_, rfl⟩
    have hlogged : RunState.Trusted lib { m'.run with log } := { h.run with }
    refine (h.withRun hlogged (.refl _)).withHeap ?_
    intro word hword
    rcases Array.mem_append.mp hword with hword | hword
    · rcases Array.mem_push.mp hword with hword | rfl
      · rcases Array.mem_push.mp hword with hword | rfl
        · exact h.heap word hword
        · exact hshape
      · exact .small 0
    · exact hfields word hword
  · exact .of_error hplace trivial

/-- The shape in the operand of an instruction says how many fields are taken. -/
theorem makeObject_works (h : m.Clean lib) {word : Word} {shape : Shape}
    (hshape : m.run.dict.shape word = .ok shape) :
    Ensures (makeObject word) m (fun _ m' ↦ m.Works lib shape.size 1 m') fun _ _ ↦ True := by
  refine Ensures.bind_ok (query_of_ok hshape) ?_
  refine (query_ensures _ m).bind ?_
  rintro fields _ ⟨hfields, rfl⟩
  split at hfields
  · cases hfields
  next hcount =>
  obtain rfl := Except.ok.inj hfields
  obtain ⟨id, hvalue⟩ := Dictionary.value_of_shape hshape
  have hcanonical : word.Canonical m.run.dict := .of_value hvalue (by simp)
  have hmembers (field : Word)
      (hfield : field ∈ m.stack.extract (m.stack.size - shape.size) m.stack.size) :
      field.Canonical m.run.dict := by
    obtain ⟨index, hindex⟩ := Array.mem_iff_getElem?.mp hfield
    obtain ⟨hlt, rfl⟩ := Array.getElem?_eq_some_iff.mp hindex
    rw [Array.getElem_extract]
    exact h.stack _ (Array.getElem_mem _)
  refine (place_works h.refl hcanonical hmembers).bind ?_
  rintro reference m₁ ⟨hreference, h₁, hstack⟩
  have hle : shape.size ≤ m₁.stack.size := by
    rw [hstack]
    omega
  have hshrink := h₁.shrink hle
  rw [Nat.zero_add] at hshrink
  exact Ensures.bind_ok rfl (push_works hshrink hreference)

theorem mem_of_readField {heap : Heap} {index offset : Nat} {word : Word}
    (h : heap.readField index offset = .ok word) : word ∈ heap.cells := by
  unfold Heap.readField at h
  obtain ⟨cell, hcell, h⟩ := exists_of_bind_eq_ok h
  obtain rfl := Except.ok.inj h
  have hlt : cell < heap.cells.size := Heap.lt_used_of_cellOfField hcell
  rw [Array.getD_eq_getD_getElem?, Array.getElem?_eq_getElem hlt]
  exact Array.getElem_mem _

theorem readField_works (h : m.Works lib taken left m') (receiver : Word) (name : String) :
    Ensures (readField receiver name) m'
      (fun word m'' ↦ word.Canonical m''.run.dict ∧ m.Works lib taken left m'')
      fun _ _ ↦ True := by
  unfold readField
  split
  · refine (query_ensures _ m').bind ?_
    rintro shape _ ⟨-, rfl⟩
    split
    · refine (query_ensures _ m').mono ?_ fun _ _ _ ↦ trivial
      rintro word _ ⟨hread, rfl⟩
      exact ⟨h.heap word (mem_of_readField hread), h⟩
    · exact .pure ⟨h.toClean.undefined, h⟩
  · refine (decode_works h receiver).bind ?_
    rintro value m₁ ⟨-, h₁⟩
    refine (query_ensures _ m₁).bind ?_
    rintro field _ ⟨hread, rfl⟩
    exact encode_works h₁ (h₁.run.toStores.readField .undefined hread)

theorem writeField_works (h : m.Works lib taken left m') (receiver : Word) (name : String)
    {word : Word} (hword : word.Canonical m'.run.dict) :
    Ensures (writeField receiver name word) m' (fun _ m'' ↦ m.Works lib taken left m'')
      fun _ _ ↦ True := by
  unfold writeField
  split
  · next index _ =>
    refine (query_ensures _ m').bind ?_
    rintro shape _ ⟨-, rfl⟩
    split
    · next offset _ =>
      unfold Ensures Heap.writeField
      cases hcell : m'.heap.cellOfField index offset with
      | error failure =>
        simp only [hcell]
      | ok cell =>
        simp only [hcell]
        refine h.withHeap fun other hother ↦ ?_
        rcases Array.mem_or_eq_of_mem_setIfInBounds hother with hold | rfl
        · exact h.heap other hold
        · exact hword
    · exact .of_error rfl trivial
  · refine (decode_works h receiver).bind ?_
    rintro target m₁ ⟨-, h₁⟩
    refine (decode_works h₁ word).bind ?_
    rintro value m₂ ⟨hvalue, h₂⟩
    refine (onRun_works h₂ (.writeField target name hvalue)
      (Run.writeField_moves target name value)).2.mono ?_ fun _ _ _ ↦ trivial
    exact fun _ _ h ↦ h.2

/-! ## Instructions -/

theorem cell_ensures (h : m.Works lib taken left m') (index : Nat) :
    Ensures (cell index) m'
      (fun word m'' ↦ word.Canonical m'.run.dict ∧ m' = m'') fun _ _ ↦ True := by
  refine (query_ensures _ m').mono ?_ fun _ _ _ ↦ trivial
  rintro word _ ⟨hword, rfl⟩
  unfold Machine.cell at hword
  split at hword
  · next hget =>
    obtain rfl := Except.ok.inj hword
    exact ⟨h.toClean.getElem? hget, rfl⟩
  · cases hword

theorem slotCell_ensures (slot : UInt32) (m : Machine) :
    Ensures (query fun m ↦ m.slotCell slot) m
      (fun index m' ↦ slot.toNat < m.code.slots ∧ index = m.bp + slot.toNat ∧ m = m')
      fun _ _ ↦ True := by
  refine (query_ensures _ m).mono ?_ fun _ _ _ ↦ trivial
  rintro index _ ⟨hslot, rfl⟩
  unfold Machine.slotCell at hslot
  split at hslot
  · next hlt => exact ⟨hlt, (Except.ok.inj hslot).symm, rfl⟩
  · cases hslot

theorem setCell_works (h : m.Works lib taken left m') {slot : Nat} (hslot : slot < m.code.slots)
    {word : Word} (hword : word.Canonical m'.run.dict) :
    Ensures (setCell (m.bp + slot) word) m' (fun _ m'' ↦ m.Works lib taken left m'')
      fun _ _ ↦ True := by
  by_cases hlt : m.bp + slot < m'.stack.size
  · exact .of_ok (setCell_of_lt hlt) (h.setVariable hslot hword)
  · exact .of_error (if_neg hlt) trivial

/-- An instruction that names what it should, and is neither a call nor a return nor a jump. -/
theorem perform_works (h : m.Clean lib) (call : Caller) {i : Instruction}
    (heffect : i.Effect m.run.dict m.code.slots taken left) (hi : ∀ argc, i ≠ .call argc) :
    Ensures (perform call i) m (fun result m' ↦ result = none ∧ m.Works lib taken left m')
      fun _ _ ↦ True := by
  cases heffect with
  | const hdenotes =>
    refine (push_works h.refl (.of_denotes hdenotes)).bind fun _ m₁ h₁ ↦ ?_
    exact .pure ⟨rfl, h₁⟩
  | @lookup _ name hname =>
    refine Ensures.bind_ok (name_of_value hname) (Ensures.bind_ok rfl ?_)
    refine (encode_works h.refl (h.run.toStores.global .undefined name)).bind ?_
    rintro word m₁ ⟨hword, h₁⟩
    refine (push_works h₁ hword).bind fun _ m₂ h₂ ↦ ?_
    exact .pure ⟨rfl, h₂⟩
  | @register _ name hname =>
    refine Ensures.bind_ok (name_of_value hname) ?_
    refine (pop_works h.refl).bind ?_
    rintro word m₁ ⟨-, h₁, -⟩
    refine (decode_works h₁ word).bind ?_
    rintro value m₂ ⟨hvalue, h₂⟩
    refine (onRun_works h₂ (.setGlobal name hvalue) (Run.setGlobal_moves name value)).2.bind ?_
    rintro _ m₃ ⟨-, h₃⟩
    exact .pure ⟨rfl, h₃⟩
  | load =>
    refine (slotCell_ensures _ m).bind ?_
    rintro index _ ⟨-, -, rfl⟩
    refine (cell_ensures h.refl index).bind ?_
    rintro word _ ⟨hword, rfl⟩
    refine (push_works h.refl hword).bind fun _ m₁ h₁ ↦ ?_
    exact .pure ⟨rfl, h₁⟩
  | store =>
    refine (slotCell_ensures _ m).bind ?_
    rintro index _ ⟨hslot, rfl, rfl⟩
    refine (pop_works h.refl).bind ?_
    rintro word m₁ ⟨hword, h₁, -⟩
    refine (setCell_works h₁ hslot hword).bind fun _ m₂ h₂ ↦ ?_
    exact .pure ⟨rfl, h₂⟩
  | dup =>
    refine (query_ensures _ m).bind ?_
    rintro word _ ⟨htop, rfl⟩
    split at htop
    · next found hback =>
      obtain rfl := Except.ok.inj htop
      refine (push_works h.refl (h.stack found (Array.mem_of_back? hback))).bind fun _ m₁ h₁ ↦ ?_
      exact .pure ⟨rfl, h₁.weaken⟩
    · cases htop
  | pop =>
    refine (pop_works h.refl).bind ?_
    rintro _ m₁ ⟨-, h₁, -⟩
    exact .pure ⟨rfl, h₁⟩
  | swap =>
    refine (pop_works h.refl).bind ?_
    rintro first m₁ ⟨hfirst, h₁, -⟩
    refine (pop_works h₁).bind ?_
    rintro second m₂ ⟨hsecond, h₂, hrun⟩
    rw [← hrun] at hfirst
    exact Ensures.bind_ok rfl (.pure ⟨rfl, (h₂.push hfirst).push hsecond⟩)
  | call => exact absurd rfl (hi _)
  | new hshape =>
    refine (makeObject_works h hshape).bind fun _ m₁ h₁ ↦ ?_
    exact .pure ⟨rfl, h₁⟩
  | @get _ name hname =>
    refine Ensures.bind_ok (name_of_value hname) ?_
    refine (pop_works h.refl).bind ?_
    rintro receiver m₁ ⟨-, h₁, -⟩
    refine (readField_works h₁ receiver name).bind ?_
    rintro word m₂ ⟨hword, h₂⟩
    refine (push_works h₂ hword).bind fun _ m₃ h₃ ↦ ?_
    exact .pure ⟨rfl, h₃⟩
  | @put _ name hname =>
    refine Ensures.bind_ok (name_of_value hname) ?_
    refine (pop_works h.refl).bind ?_
    rintro word m₁ ⟨hword, h₁, -⟩
    refine (pop_works h₁).bind ?_
    rintro receiver m₂ ⟨-, h₂, hrun⟩
    rw [← hrun] at hword
    refine (writeField_works h₂ receiver name hword).bind fun _ m₃ h₃ ↦ ?_
    exact .pure ⟨rfl, h₃⟩

end Exec

end TandemScript
