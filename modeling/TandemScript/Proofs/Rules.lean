import TandemScript.Proofs.Soundness

/-!
# Rules for instructions

For each instruction, where a sound machine gets to with it in one step: what the instruction leaves
behind is sound again, and a condition that holds there holds of the next machine. The only failures
that a rule does not ask about are those where something ran out.
-/

namespace TandemScript

variable {p : Program} {objects : List Placed} {m : Machine} {E : Failure → Machine → Prop}
  {Q : Machine → Prop} {line : UInt32} {rest : Fragment}

/-- Failures where something ran out are allowed. -/
def Lenient (E : Failure → Machine → Prop) : Prop :=
  ∀ failure m, m.RanOut failure → E failure m

/-- The computation fails in the function of the machine as it may. -/
def Machine.Fails (m : Machine) (i : Instruction) (line : UInt32) (E : Failure → Machine → Prop)
    (stop : Stop) (m' : Machine) : Prop :=
  ∃ failure, stop = .failed failure ∧ m'.function = m.function ∧ m'.code = m.code ∧
    E (m.noted i line failure) m'

theorem Machine.Starves.fails {i : Instruction} {stop : Stop} {m m' m'' : Machine}
    (h : m'.Starves stop m'') (hE : Lenient E) (hfunction : m'.function = m.function)
    (hcode : m'.code = m.code) : m.Fails i line E stop m'' := by
  obtain ⟨failure, rfl, hfunction', hcode', hran⟩ := h
  refine ⟨failure, rfl, hfunction'.trans hfunction, hcode'.trans hcode, hE _ _ ?_⟩
  unfold RanOut Failure.IsExhaustion at hran ⊢
  rwa [Machine.cause_noted]

theorem Machine.cell_eq_ok {m : Machine} {index : Nat} {word : Word}
    (h : m.stack[index]? = some word) : m.cell index = .ok word := by
  unfold cell
  rw [h]

namespace Exec

theorem query_of_ok {α : Type} {f : Machine → Except Failure α} {a : α} (h : f m = .ok a) :
    query f m = .ok a m := by
  unfold query
  rw [h]

theorem cell_of_getElem? {index : Nat} {word : Word} (h : m.stack[index]? = some word) :
    cell index m = .ok word m :=
  query_of_ok (Machine.cell_eq_ok h)

theorem push_spec (m : Machine) (word : Word) :
    Ensures (push word) m
      (fun _ m' ↦ m' = { m with stack := m.stack.push word } ∧ m.stack.size < m.stackLimit)
      m.Starves := by
  unfold Ensures push
  by_cases hfull : m.stackLimit ≤ m.stack.size
  · rw [if_pos hfull]
    exact ⟨_, rfl, rfl, rfl, .inl ⟨_, _, rfl⟩⟩
  · rw [if_neg hfull]
    exact ⟨rfl, Nat.lt_of_not_le hfull⟩

theorem push_of_room {word : Word} (h : m.stack.size < m.stackLimit) :
    push word m = .ok () { m with stack := m.stack.push word } :=
  if_neg (Nat.not_le_of_lt h)

theorem pop_of_push {stack : Array Word} {word : Word} (h : m.stack = stack.push word) :
    pop m = .ok word { m with stack } := by
  unfold pop
  rw [h]
  simp

theorem top_of_push {stack : Array Word} {word : Word} (h : m.stack = stack.push word) :
    top m = .ok word m :=
  query_of_ok (by simp [h])

theorem truncate_of_shrink {count : Nat} {stack : Array Word} (h : m.stack.shrink count = stack) :
    truncate count m = .ok () { m with stack } := by
  rw [← h]
  rfl

theorem setCell_of_lt {index : Nat} {word : Word} (h : index < m.stack.size) :
    setCell index word m = .ok () { m with stack := m.stack.setIfInBounds index word } :=
  if_pos h

theorem name_of_value {word : Word} {s : String} (h : m.run.dict.value word = .ok (.str s)) :
    name word m = .ok s m :=
  query_of_ok (Dictionary.string_of_value h)

theorem decode_of_value {word : Word} {value : Value} (h : m.run.dict.value word = .ok value) :
    decode word m = .ok value m := by
  have hplain := plainValue_of_value h
  obtain ⟨index, hview, -⟩ := Dictionary.value_eq_ok.mp h
  unfold decode
  rw [hview]
  simp only [hplain]

theorem decode_of_plain {word : Word} (hplain : ∀ index, word.view ≠ .reference index)
    {value : Value} (h : plainValue m.run.dict word = .ok value) : decode word m = .ok value m := by
  unfold decode
  cases hview : word.view with
  | reference index => exact absurd hview (hplain index)
  | _ => simp only [h]

/-- Decoding a word changes nothing but the records. -/
theorem decode_eq (word : Word) (m : Machine) :
    decode word m = match TandemScript.decode m.run.dict m.heap word m.run.records with
      | .ok value records => .ok value { m with run := { m.run with records } }
      | .error failure records =>
        .error (.failed failure) { m with run := { m.run with records } } := by
  unfold decode
  cases hview : word.view with
  | reference index =>
    simp only [onRun_apply, Run.onRecords_apply]
    cases TandemScript.decode m.run.dict m.heap word m.run.records <;> rfl
  | _ =>
    rw [TandemScript.decode_of_plain fun index ↦ by simp [hview]]
    simp only
    cases plainValue m.run.dict word <;> rfl

section Fields

variable {name : String} {receiver word : Word} {o : Placed} {offset : Nat}

theorem layoutOf_of_mem (h : m.heap.Tiled m.run.dict objects) (ho : o ∈ objects) :
    layoutOf o.start m = .ok o.shape m :=
  query_of_ok (h.layout ho)

theorem readField_of_slot (h : m.heap.Tiled m.run.dict objects) (ho : o ∈ objects)
    (hview : receiver.view = .reference o.start) (hslot : o.shape.slot? name = some offset)
    (hword : m.heap.field? o offset = some word) : readField receiver name m = .ok word m := by
  obtain ⟨found, hread, hfound⟩ := h.readField ho (Shape.lt_of_slot? hslot)
  obtain rfl := Option.some.inj (hfound.symm.trans hword)
  unfold readField
  simp only [hview]
  rw [bind_of_ok (layoutOf_of_mem h ho)]
  simp only [hslot]
  exact query_of_ok hread

theorem readField_of_none (h : m.heap.Tiled m.run.dict objects) (ho : o ∈ objects)
    (hview : receiver.view = .reference o.start) (hslot : o.shape.slot? name = none) :
    readField receiver name m = .ok Word.undefined m := by
  unfold readField
  simp only [hview]
  rw [bind_of_ok (layoutOf_of_mem h ho)]
  simp only [hslot]
  rfl

theorem writeField_of_slot (h : m.heap.Tiled m.run.dict objects) (ho : o ∈ objects)
    (hview : receiver.view = .reference o.start) (hslot : o.shape.slot? name = some offset)
    (word : Word) :
    writeField receiver name word m =
      .ok () { m with heap := m.heap.setCell (o.cell offset) word } := by
  unfold writeField
  simp only [hview]
  rw [bind_of_ok (layoutOf_of_mem h ho)]
  simp only [hslot, h.writeField ho (Shape.lt_of_slot? hslot)]

theorem writeField_of_none (h : m.heap.Tiled m.run.dict objects) (ho : o ∈ objects)
    (hview : receiver.view = .reference o.start) (hslot : o.shape.slot? name = none)
    (word : Word) :
    writeField receiver name word m = .error (.failed ⟨.invalidField name, {}⟩) m := by
  unfold writeField
  simp only [hview]
  rw [bind_of_ok (layoutOf_of_mem h ho)]
  simp only [hslot]
  rfl

end Fields

end Exec

namespace Machine.Sound

theorem undefined (h : m.Sound p objects) : m.run.dict.value Word.undefined = .ok .undefined :=
  h.grows.value p.undefined

/-- No word but a reference stands for a record. -/
theorem plainValue_ne_record (h : m.Sound p objects) {word : Word} {id : RecordId} :
    plainValue m.run.dict word ≠ .ok (.record id) := by
  intro hvalue
  unfold plainValue at hvalue
  split at hvalue
  · simp at hvalue
  · obtain ⟨index, -, hget⟩ := Dictionary.value_eq_ok.mp hvalue
    exact h.entries index _ hget

/-- Positions of the code are counted by words. -/
theorem target_lt (h : m.Sound p objects) {target : Nat} (htarget : target ≤ m.code.words.size) :
    target < UInt32.size := by
  have hshort := h.defined.isShort _ h.code
  unfold codeBound at hshort
  unfold UInt32.size
  omega

theorem push (h : m.Sound p objects) {word : Word} (hword : word.Valid m.run.dict objects)
    (hroom : m.stack.size < m.stackLimit) :
    ({ m with stack := m.stack.push word } : Machine).Sound p objects := by
  refine h.withStack (fun other hother ↦ ?_) (by rw [Array.size_push]; exact hroom)
  rcases Array.mem_push.mp hother with hold | rfl
  · exact h.stack other hold
  · exact hword

theorem of_push (h : m.Sound p objects) {stack : Array Word} {word : Word}
    (hstack : m.stack = stack.push word) :
    ({ m with stack } : Machine).Sound p objects ∧ word.Valid m.run.dict objects := by
  have hsize := h.room
  have hvalid := h.stack
  rw [hstack] at hsize hvalid
  simp only [Array.size_push] at hsize
  exact ⟨h.withStack (fun other hother ↦ hvalid other (Array.mem_push_of_mem _ hother)) (by omega),
    hvalid word Array.mem_push_self⟩

theorem shrink (h : m.Sound p objects) (count : Nat) :
    ({ m with stack := m.stack.shrink count } : Machine).Sound p objects := by
  refine h.withStack (fun word hword ↦ h.stack word ?_) ?_
  · rw [← Array.mem_toList_iff, Array.toList_shrink] at hword
    exact Array.mem_toList_iff.mp (List.mem_of_mem_take hword)
  · rw [Array.size_shrink]
    exact Nat.le_trans (Nat.min_le_right _ _) h.room

theorem of_append (h : m.Sound p objects) {stack more : Array Word}
    (hstack : m.stack = stack ++ more) : ({ m with stack } : Machine).Sound p objects := by
  have hsize := h.room
  have hvalid := h.stack
  rw [hstack] at hsize hvalid
  rw [Array.size_append] at hsize
  exact h.withStack (fun word hword ↦ hvalid word (Array.mem_append_left _ hword))
    (Nat.le_trans (Nat.le_add_right _ _) hsize)

/-- The cell of a variable that is in the frame. -/
theorem slotCell_ofNat {slot : Nat} (h : m.Sound p objects) (hslot : slot < m.code.slots)
    (hframe : m.bp + m.code.slots ≤ m.stack.size) :
    m.slotCell (.ofNat slot) = .ok (m.bp + slot) := by
  have hbound := h.size_le
  have hsmall : slot < UInt32.size := by
    unfold indexBound at hbound
    unfold UInt32.size
    omega
  unfold Machine.slotCell
  rw [UInt32.toNat_ofNat_of_lt' hsmall, if_pos hslot]

end Machine.Sound

theorem Array.shrink_append_left {α : Type} (xs ys : Array α) : (xs ++ ys).shrink xs.size = xs := by
  apply Array.ext'
  rw [Array.toList_shrink, Array.toList_append, ← Array.length_toList, List.take_left]

theorem Exec.makeObject_spec (hs : m.Sound p objects) {shapeWord : Word} {shape : Shape}
    {stack fields : Array Word} (hshape : m.run.dict.shape shapeWord = .ok shape)
    (hsize : fields.size = shape.size) (hstack : m.stack = stack ++ fields) :
    Ensures (makeObject shapeWord) m
      (fun _ m' ↦ ∃ reference log capacity, reference.view = .reference m.heap.used ∧
        m' = { m with
          stack := stack.push reference, run := { m.run with log }
          heap := { m.heap with capacity }.add shapeWord fields } ∧
        m'.Sound p (objects ++ [⟨m.heap.used, shape⟩]))
      m.Starves := by
  have hlast : Exec.lastCells shape.size .missingInitializers m = .ok fields m := by
    refine Exec.query_of_ok ?_
    have hle : ¬ m.stack.size < shape.size := by
      rw [hstack, Array.size_append]
      omega
    simp only [if_neg hle]
    rw [hstack, Array.size_append, ← hsize, Nat.add_sub_cancel, Array.extract_append_right]
    simp
  have hfields (word : Word) (hword : word ∈ fields) : word.Valid m.run.dict objects :=
    hs.stack word (hstack ▸ Array.mem_append_right _ hword)
  refine Ensures.bind_ok (query_of_ok hshape) (Ensures.bind_ok hlast ?_)
  rcases place_spec m shapeWord fields with
    ⟨log, capacity, reference, hplace, hreference, -, -, -⟩ |
      ⟨failure, log, capacity, hplace, hexhausted, -⟩
  · have hview := Word.view_of_reference? hreference
    have hlt := Word.lt_of_reference? hreference
    have hstack' : m.stack.shrink (m.stack.size - shape.size) = stack := by
      rw [hstack, Array.size_append, ← hsize, Nat.add_sub_cancel, Array.shrink_append_left]
    have hs' : ({ m with
          stack, run := { m.run with log }
          heap := { m.heap with capacity }.add shapeWord fields } : Machine).Sound p
        (objects ++ [⟨m.heap.used, shape⟩]) :=
      { hs with
        heap := (hs.heap.withCapacity capacity).add hshape hsize hlt hfields
        stack := fun word hword ↦ (hs.stack word (hstack ▸ Array.mem_append_left _ hword)).mono
          (.refl _) (List.subset_append_left _ _)
        globals := fun name value hvalue ↦ (hs.globals name value hvalue).mono
          (List.subset_append_left _ _) (.refl _)
        room := by
          have hroom := hs.room
          rw [hstack, Array.size_append] at hroom
          exact Nat.le_trans (Nat.le_add_right _ _) hroom }
    have hshrunk := congrArg (fun stack ↦ (EStateM.Result.ok PUnit.unit { m with
      stack, run := { m.run with log }
      heap := { m.heap with capacity }.add shapeWord fields } : EStateM.Result Stop Machine PUnit))
      hstack'
    refine Ensures.bind_ok hplace (Ensures.bind_ok hshrunk ?_)
    refine (push_spec _ reference).mono ?_ fun _ _ h ↦ h
    rintro _ m' ⟨rfl, hroom⟩
    have hnew : (⟨m.heap.used, shape⟩ : Placed) ∈ objects ++ [⟨m.heap.used, shape⟩] :=
      List.mem_append_right _ (List.mem_singleton_self _)
    exact ⟨reference, log, capacity, hview, rfl, hs'.push (.of_reference hnew hview) hroom⟩
  · exact .of_error (bind_of_error hplace) ⟨failure, rfl, rfl, rfl, .inl hexhausted⟩

namespace Next

/-- After its words are read an instruction may fail, or it leaves a sound machine behind. -/
theorem after {i : Instruction} (hcode : m.code.Contains m.pc ((i, line) :: rest))
    (h : Ensures (Exec.perform Caller.native i) { m with pc := m.pc + i.size }
      (fun result m' ↦ result = none ∧ Q m') (m.Fails i line E)) : Next E Q m :=
  Next.perform hcode h

/-- An instruction that ends by pushing a word fails if the stack is full. -/
theorem push {m' : Machine} {i : Instruction} {word : Word} (hE : Lenient E)
    (hs : m'.Sound p objects) (hword : word.Valid m'.run.dict objects)
    (hfunction : m'.function = m.function) (hcode : m'.code = m.code)
    (h : ({ m' with stack := m'.stack.push word } : Machine).Sound p objects →
      Q { m' with stack := m'.stack.push word }) :
    Ensures (Exec.push word >>= fun _ ↦ Pure.pure none : Exec (Option Word)) m'
      (fun result m' ↦ result = none ∧ Q m') (m.Fails i line E) := by
  refine Ensures.bind ((Exec.push_spec _ word).mono (fun _ _ h ↦ h)
    fun _ _ h ↦ h.fails hE hfunction hcode) ?_
  rintro _ m' ⟨rfl, hroom⟩
  exact .pure ⟨rfl, h (hs.push hword hroom)⟩

section Stack

variable {stack : Array Word} {word : Word}

theorem const (hE : Lenient E) (hs : m.Sound p objects)
    (hcode : m.code.Contains m.pc ((.const word, line) :: rest))
    (hword : word.Valid m.run.dict objects)
    (h : ∀ m', m' = { m with pc := m.pc + 2, stack := m.stack.push word } →
      m'.Sound p objects → Q m') : Next E Q m := by
  exact .after hcode (push hE (hs.withPc _) hword rfl rfl (h _ rfl))

theorem dup (hE : Lenient E) (hs : m.Sound p objects)
    (hcode : m.code.Contains m.pc ((.dup, line) :: rest)) (hstack : m.stack = stack.push word)
    (h : ∀ m', m' = { m with pc := m.pc + 1, stack := m.stack.push word } →
      m'.Sound p objects → Q m') : Next E Q m := by
  refine .after hcode (Ensures.bind_ok (Exec.top_of_push hstack) ?_)
  exact push hE (hs.withPc _) (hs.of_push hstack).2 rfl rfl (h _ rfl)

theorem pop (hs : m.Sound p objects) (hcode : m.code.Contains m.pc ((.pop, line) :: rest))
    (hstack : m.stack = stack.push word)
    (h : ∀ m', m' = { m with pc := m.pc + 1, stack } → m'.Sound p objects → Q m') :
    Next E Q m := by
  refine .after hcode (Ensures.bind_ok (Exec.pop_of_push hstack) ?_)
  exact .pure ⟨rfl, h _ rfl ((hs.of_push hstack).1.withPc _)⟩

theorem swap {second : Word} (hs : m.Sound p objects)
    (hcode : m.code.Contains m.pc ((.swap, line) :: rest))
    (hstack : m.stack = (stack.push second).push word)
    (h : ∀ m', m' = { m with pc := m.pc + 1, stack := (stack.push word).push second } →
      m'.Sound p objects → Q m') : Next E Q m := by
  obtain ⟨hs₁, hword⟩ := hs.of_push hstack
  obtain ⟨hs₂, hsecond⟩ := hs₁.of_push rfl
  have hroom := hs.room
  rw [hstack] at hroom
  simp only [Array.size_push] at hroom
  refine .after hcode (Ensures.bind_ok (Exec.pop_of_push hstack) ?_)
  refine Ensures.bind_ok (Exec.pop_of_push rfl) (Ensures.bind_ok rfl ?_)
  have hs₃ := Machine.Sound.push (hs₂.push hword ?_) hsecond ?_
  · exact .pure ⟨rfl, h _ rfl (hs₃.withPc _)⟩
  · exact Nat.lt_of_succ_lt hroom
  · exact (Array.size_push word).symm ▸ hroom

theorem goto {target : Nat} (hs : m.Sound p objects)
    (hcode : m.code.Contains m.pc ((.goto (.ofNat target), line) :: rest))
    (htarget : target < UInt32.size)
    (h : ∀ m', m' = { m with pc := target } → m'.Sound p objects → Q m') :
    Next E Q m := by
  refine .after hcode (Ensures.bind_ok rfl ?_)
  have hpc : (UInt32.ofNat target).toNat = target := UInt32.toNat_ofNat_of_lt' htarget
  refine .pure ⟨rfl, h _ ?_ (hs.withPc _)⟩
  rw [hpc]

theorem jumpIfFalse {target : Nat} (hs : m.Sound p objects)
    (hcode : m.code.Contains m.pc ((.jumpIfFalse (.ofNat target), line) :: rest))
    (htarget : target < UInt32.size) (hstack : m.stack = stack.push word)
    (h : ∀ m', m' = { m with pc := if word = Word.zero then target else m.pc + 2, stack } →
      m'.Sound p objects → Q m') : Next E Q m := by
  have hpc : (UInt32.ofNat target).toNat = target := UInt32.toNat_ofNat_of_lt' htarget
  refine .after hcode (Ensures.bind_ok (Exec.pop_of_push hstack) ?_)
  by_cases hzero : word = Word.zero
  · rw [if_pos hzero]
    refine Ensures.bind_ok rfl (.pure ⟨rfl, h _ ?_ ((hs.of_push hstack).1.withPc _)⟩)
    rw [if_pos hzero, hpc]
  · rw [if_neg hzero]
    refine Ensures.pure ⟨rfl, h _ ?_ ((hs.of_push hstack).1.withPc _)⟩
    rw [if_neg hzero]
    rfl

end Stack

section Variables

variable {slot : Nat}

theorem load (hE : Lenient E) (hs : m.Sound p objects)
    (hcode : m.code.Contains m.pc ((.load (.ofNat slot), line) :: rest))
    (hslot : slot < m.code.slots) (hframe : m.bp + m.code.slots ≤ m.stack.size)
    (h : ∀ word m', m.stack[m.bp + slot]? = some word →
      m' = { m with pc := m.pc + 2, stack := m.stack.push word } → m'.Sound p objects →
        Q m') : Next E Q m := by
  have hindex := hs.slotCell_ofNat hslot hframe
  have hword : m.stack[m.bp + slot]? = some m.stack[m.bp + slot] :=
    Array.getElem?_eq_getElem (by omega)
  refine .after hcode (Ensures.bind_ok (Exec.query_of_ok hindex) ?_)
  refine Ensures.bind_ok (Exec.cell_of_getElem? hword) ?_
  exact push hE (hs.withPc _) (hs.stack_valid hword) rfl rfl (h _ _ hword rfl)

theorem store {stack : Array Word} {word : Word} (hs : m.Sound p objects)
    (hcode : m.code.Contains m.pc ((.store (.ofNat slot), line) :: rest))
    (hslot : slot < m.code.slots) (hframe : m.bp + m.code.slots ≤ stack.size)
    (hstack : m.stack = stack.push word)
    (h : ∀ m', m' = { m with
        pc := m.pc + 2, stack := stack.setIfInBounds (m.bp + slot) word } →
      m'.Sound p objects → Q m') : Next E Q m := by
  obtain ⟨hs₁, hword⟩ := hs.of_push hstack
  have hs₂ : ({ m with stack := stack.setIfInBounds (m.bp + slot) word } : Machine).Sound p
      objects := by
    refine hs₁.withStack (fun other hother ↦ ?_) (by rw [Array.size_setIfInBounds]; exact hs₁.room)
    rcases Array.mem_or_eq_of_mem_setIfInBounds hother with hold | rfl
    · exact hs₁.stack other hold
    · exact hword
  have hindex : m.slotCell (.ofNat slot) = .ok (m.bp + slot) := hs₁.slotCell_ofNat hslot hframe
  refine .after hcode (Ensures.bind_ok (Exec.query_of_ok hindex) ?_)
  refine Ensures.bind_ok (Exec.pop_of_push hstack) ?_
  refine Ensures.bind_ok (Exec.setCell_of_lt ?_) ?_
  · exact Nat.lt_of_lt_of_le (Nat.add_lt_add_left hslot _) hframe
  exact .pure ⟨rfl, h _ rfl (hs₂.withPc _)⟩

end Variables

section Names

variable {name : String} {nameWord : Word}

theorem lookup (hE : Lenient E) (hs : m.Sound p objects)
    (hcode : m.code.Contains m.pc ((.lookup nameWord, line) :: rest))
    (hname : m.run.dict.value nameWord = .ok (.str name))
    (h : ∀ word dict m',
      Exec.Encoded p m.run.dict m.heap.id m.run.records (m.run.global name) word dict →
      m' = { m with pc := m.pc + 2, stack := m.stack.push word, run := { m.run with dict } } →
        m'.Sound p objects → Q m') : Next E Q m := by
  refine .after hcode (Ensures.bind_ok (Exec.name_of_value hname) (Ensures.bind_ok rfl ?_))
  refine Ensures.bind ((Exec.encode_spec (hs.withPc (m.pc + 2)) (hs.global_valid name)).mono
    (fun _ _ h ↦ h) fun _ _ h ↦ h.fails hE rfl rfl) ?_
  rintro word _ ⟨dict, rfl, hencoded⟩
  have hs₁ := (hs.withPc (m.pc + 2)).withDict hencoded.grows hencoded.entries
  exact push hE hs₁ (hencoded.means.valid (hs.global_valid name)) rfl rfl
    (h word dict _ hencoded rfl)

theorem register {stack : Array Word} {word : Word} (hs : m.Sound p objects)
    (hcode : m.code.Contains m.pc ((.register nameWord, line) :: rest))
    (hname : m.run.dict.value nameWord = .ok (.str name)) (hstack : m.stack = stack.push word)
    (h : ∀ value records m', m.run.records.Keeps records →
      word.Decodes m.run.dict m.heap objects records value →
      m' = { m with
        pc := m.pc + 2, stack
        run := { m.run with records, globals := m.run.globals.set name value } } →
      m'.Sound p objects → Q m') : Next E Q m := by
  obtain ⟨hs₁, hword⟩ := hs.of_push hstack
  have hs₂ := hs₁.withPc (m.pc + 2)
  obtain ⟨value, records, hdecode, hkeeps, hdecodes⟩ := Exec.decode_spec hs₂ hword
  refine .after hcode (Ensures.bind_ok (Exec.name_of_value hname) ?_)
  refine Ensures.bind_ok (Exec.pop_of_push hstack) (Ensures.bind_ok hdecode ?_)
  refine Ensures.bind_ok rfl (.pure ⟨rfl, h value records _ hkeeps hdecodes rfl ?_⟩)
  exact (hs₂.withRecords hkeeps).setGlobal (hs₂.valid_of_decodes hdecodes)

end Names

section Fields

variable {name : String} {nameWord word : Word} {stack : Array Word} {o : Placed}

/-- Where a name has a slot, the field is read there; other fields are undefined. -/
theorem getObject (hE : Lenient E) (hs : m.Sound p objects)
    (hcode : m.code.Contains m.pc ((.get nameWord, line) :: rest))
    (hname : m.run.dict.value nameWord = .ok (.str name)) (hstack : m.stack = stack.push word)
    (ho : o ∈ objects) (hview : word.view = .reference o.start)
    (h : ∀ found m', (match o.shape.slot? name with
        | some offset => m.heap.field? o offset = some found
        | none => found = Word.undefined) →
      m' = { m with pc := m.pc + 2, stack := stack.push found } → m'.Sound p objects →
        Q m') : Next E Q m := by
  have hs₁ := (hs.of_push hstack).1.withPc (m.pc + 2)
  have hread : ∃ found, Exec.readField word name { m with pc := m.pc + 2, stack } =
        .ok found { m with pc := m.pc + 2, stack } ∧ found.Valid m.run.dict objects ∧
      match o.shape.slot? name with
      | some offset => m.heap.field? o offset = some found
      | none => found = Word.undefined := by
    cases hslot : o.shape.slot? name with
    | some offset =>
      obtain ⟨found, -, hfield⟩ := hs.heap.readField ho (Shape.lt_of_slot? hslot)
      exact ⟨found, Exec.readField_of_slot hs₁.heap.toTiled ho hview hslot hfield,
        hs.field_valid hfield, hfield⟩
    | none =>
      exact ⟨_, Exec.readField_of_none hs₁.heap.toTiled ho hview hslot, .of_value hs.undefined, rfl⟩
  obtain ⟨found, hread, hvalid, hfound⟩ := hread
  refine .after hcode (Ensures.bind_ok (Exec.name_of_value hname) ?_)
  refine Ensures.bind_ok (Exec.pop_of_push hstack) (Ensures.bind_ok hread ?_)
  exact push hE hs₁ hvalid rfl rfl (h found _ hfound rfl)

/-- The fields of the global environment are the global names; nothing else has fields. -/
theorem getPlain (hE : Lenient E) (hs : m.Sound p objects)
    (hcode : m.code.Contains m.pc ((.get nameWord, line) :: rest))
    (hname : m.run.dict.value nameWord = .ok (.str name)) (hstack : m.stack = stack.push word)
    {value : Value} (hvalue : plainValue m.run.dict word = .ok value)
    (hplain : ∀ index, word.view ≠ .reference index)
    (h : value = .global → ∀ found dict m',
      Exec.Encoded p m.run.dict m.heap.id m.run.records (m.run.global name) found dict →
      m' = { m with pc := m.pc + 2, stack := stack.push found, run := { m.run with dict } } →
        m'.Sound p objects → Q m')
    (hfail : value ≠ .global → E (m.noted (.get nameWord) line (.notA "object" m.run.records value))
      { m with pc := m.pc + 2, stack }) : Next E Q m := by
  have hs₁ := (hs.of_push hstack).1.withPc (m.pc + 2)
  have hrecord (id : RecordId) : value ≠ .record id := by
    rintro rfl
    exact hs.plainValue_ne_record hvalue
  have hdecode : Exec.decode word { m with pc := m.pc + 2, stack } =
      .ok value { m with pc := m.pc + 2, stack } := Exec.decode_of_plain hplain hvalue
  have hread : Exec.readField word name { m with pc := m.pc + 2, stack } =
      (do
        let value ← Exec.query fun m ↦ m.run.readField value name
        Exec.encode value) { m with pc := m.pc + 2, stack } := by
    unfold Exec.readField
    cases hview : word.view with
    | reference index => exact absurd hview (hplain index)
    | _ => exact bind_of_ok hdecode
  refine .after hcode (Ensures.bind_ok (Exec.name_of_value hname) ?_)
  refine Ensures.bind_ok (Exec.pop_of_push hstack) ?_
  by_cases hglobal : value = .global
  · subst hglobal
    have hspec : Ensures (Exec.readField word name) { m with pc := m.pc + 2, stack }
        (fun found m' ↦ ∃ dict,
          m' = { m with pc := m.pc + 2, stack, run := { m.run with dict } } ∧
          Exec.Encoded p m.run.dict m.heap.id m.run.records (m.run.global name) found dict)
        (m.Fails (.get nameWord) line E) := by
      unfold Ensures
      rw [hread]
      exact Ensures.bind_ok (Exec.query_of_ok rfl)
        ((Exec.encode_spec hs₁ (hs.global_valid name)).mono (fun _ _ h ↦ h)
          fun _ _ h ↦ h.fails hE rfl rfl)
    refine Ensures.bind hspec ?_
    rintro found _ ⟨dict, rfl, hencoded⟩
    have hs₂ := hs₁.withDict hencoded.grows hencoded.entries
    exact push hE hs₂ (hencoded.means.valid (hs.global_valid name)) rfl rfl
      (h rfl found dict _ hencoded rfl)
  · have hnone : Exec.query (fun m ↦ m.run.readField value name)
        { m with pc := m.pc + 2, stack } =
        .error (.failed (.notA "object" m.run.records value))
          { m with pc := m.pc + 2, stack } := by
      unfold Exec.query RunState.readField
      cases value with
      | record id => exact absurd rfl (hrecord id)
      | global => exact absurd rfl hglobal
      | _ => rfl
    exact .of_error (bind_of_error (hread.trans (bind_of_error hnone)))
      ⟨_, rfl, rfl, rfl, hfail hglobal⟩

theorem putObject {receiver : Word} (hs : m.Sound p objects)
    (hcode : m.code.Contains m.pc ((.put nameWord, line) :: rest))
    (hname : m.run.dict.value nameWord = .ok (.str name))
    (hstack : m.stack = (stack.push receiver).push word) (ho : o ∈ objects)
    (hview : receiver.view = .reference o.start)
    (h : ∀ offset, o.shape.slot? name = some offset → ∀ m',
      m' = { m with
        pc := m.pc + 2, stack, heap := m.heap.setCell (o.cell offset) word } →
      m'.Sound p objects → Q m')
    (hfail : o.shape.slot? name = none →
      E (m.noted (.put nameWord) line ⟨.invalidField name, {}⟩) { m with pc := m.pc + 2, stack }) :
    Next E Q m := by
  obtain ⟨hs₁, hword⟩ := hs.of_push hstack
  obtain ⟨hs₂, -⟩ := hs₁.of_push rfl
  refine .after hcode (Ensures.bind_ok (Exec.name_of_value hname) ?_)
  refine Ensures.bind_ok (Exec.pop_of_push hstack) ?_
  refine Ensures.bind_ok (Exec.pop_of_push rfl) ?_
  have hs₃ := hs₂.withPc (m.pc + 2)
  cases hslot : o.shape.slot? name with
  | some offset =>
    have hlt := Shape.lt_of_slot? hslot
    exact Ensures.bind_ok (Exec.writeField_of_slot hs₃.heap.toTiled ho hview hslot word)
      (.pure ⟨rfl, h offset hslot _ rfl (hs₃.setCell ho hlt hword)⟩)
  | none =>
    exact .of_error (bind_of_error (Exec.writeField_of_none hs₃.heap.toTiled ho hview hslot word))
      ⟨_, rfl, rfl, rfl, hfail hslot⟩

theorem putPlain {receiver : Word} (hs : m.Sound p objects)
    (hcode : m.code.Contains m.pc ((.put nameWord, line) :: rest))
    (hname : m.run.dict.value nameWord = .ok (.str name))
    (hstack : m.stack = (stack.push receiver).push word) {target : Value}
    (htarget : plainValue m.run.dict receiver = .ok target)
    (hplain : ∀ index, receiver.view ≠ .reference index)
    (h : target = .global → ∀ value records m', m.run.records.Keeps records →
      word.Decodes m.run.dict m.heap objects records value →
      m' = { m with
        pc := m.pc + 2, stack
        run := { m.run with records, globals := m.run.globals.set name value } } →
      m'.Sound p objects → Q m')
    (hfail : target ≠ .global → ∀ records,
      E (m.noted (.put nameWord) line (.notA "object" records target))
        { m with pc := m.pc + 2, stack, run := { m.run with records } }) : Next E Q m := by
  obtain ⟨hs₁, hword⟩ := hs.of_push hstack
  have hs₂ := (hs₁.of_push rfl).1.withPc (m.pc + 2)
  have hrecord (id : RecordId) : target ≠ .record id := by
    rintro rfl
    exact hs.plainValue_ne_record htarget
  have hdecode : Exec.decode receiver { m with pc := m.pc + 2, stack } =
      .ok target { m with pc := m.pc + 2, stack } := Exec.decode_of_plain hplain htarget
  obtain ⟨value, records, hdecode', hkeeps, hdecodes⟩ := Exec.decode_spec hs₂ hword
  have hwrite : Exec.writeField receiver name word { m with pc := m.pc + 2, stack } =
      Exec.onRun (Run.writeField target name value)
        { m with pc := m.pc + 2, stack, run := { m.run with records } } := by
    unfold Exec.writeField
    cases hview : receiver.view with
    | reference index => exact absurd hview (hplain index)
    | _ => exact (bind_of_ok hdecode).trans (bind_of_ok hdecode')
  refine .after hcode (Ensures.bind_ok (Exec.name_of_value hname) ?_)
  refine Ensures.bind_ok (Exec.pop_of_push hstack) ?_
  refine Ensures.bind_ok (Exec.pop_of_push rfl) ?_
  by_cases hglobal : target = .global
  · subst hglobal
    exact Ensures.bind_ok hwrite (.pure ⟨rfl, h rfl value records _ hkeeps hdecodes rfl
      ((hs₂.withRecords hkeeps).setGlobal (hs₂.valid_of_decodes hdecodes))⟩)
  · have hnone : Exec.onRun (Run.writeField target name value)
        { m with pc := m.pc + 2, stack, run := { m.run with records } } =
        .error (.failed (.notA "object" records target))
          { m with pc := m.pc + 2, stack, run := { m.run with records } } := by
      rw [Exec.onRun_apply]
      unfold Run.writeField
      cases target with
      | record id => exact absurd rfl (hrecord id)
      | global => exact absurd rfl hglobal
      | _ => rfl
    exact .of_error (bind_of_error (hwrite.trans hnone))
      ⟨_, rfl, rfl, rfl, hfail hglobal records⟩

end Fields

/-- The fields at the top of the stack become an object behind all others. -/
theorem new (hE : Lenient E) (hs : m.Sound p objects) {shapeWord : Word} {shape : Shape}
    {stack fields : Array Word} (hcode : m.code.Contains m.pc ((.new shapeWord, line) :: rest))
    (hshape : m.run.dict.shape shapeWord = .ok shape) (hsize : fields.size = shape.size)
    (hstack : m.stack = stack ++ fields)
    (h : ∀ reference log capacity m', reference.view = .reference m.heap.used →
      m' = { m with
        pc := m.pc + 2, stack := stack.push reference, run := { m.run with log }
        heap := { m.heap with capacity }.add shapeWord fields } →
      m'.Sound p (objects ++ [⟨m.heap.used, shape⟩]) → Q m') : Next E Q m := by
  have hmake := Exec.makeObject_spec (hs.withPc (m.pc + 2)) hshape hsize hstack
  refine .after hcode (Ensures.bind (hmake.mono (fun _ _ h ↦ h) fun _ _ h ↦ h.fails hE rfl rfl) ?_)
  rintro _ m' ⟨reference, log, capacity, hview, rfl, hs'⟩
  exact .pure ⟨rfl, h reference log capacity _ hview rfl hs'⟩

end Next

end TandemScript
