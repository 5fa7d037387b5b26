import TandemScript.Proofs.CallRules
import TandemScript.Proofs.Heights

/-!
# Windows on the stack

Between two steps the stack of a machine is made of windows, each of which says how to go back to
the one below. A step works inside the uppermost window, or it opens a window above the operands of
the caller, or it takes a window away and leaves the result of the call in its place. Nothing below
the uppermost window changes.
-/

namespace TandemScript

variable {p : Program} {objects : List Placed} {m m' : Machine}

/-! ## Parts of a stack -/

theorem Array.exists_append_of_le {α : Type} {xs : Array α} {count : Nat} (h : count ≤ xs.size) :
    ∃ below top : Array α, xs = below ++ top ∧ top.size = count := by
  refine ⟨xs.extract 0 (xs.size - count), xs.extract (xs.size - count) xs.size, ?_, ?_⟩
  · rw [Array.extract_append_extract, Nat.zero_min, Nat.max_eq_right (Nat.sub_le _ _),
      Array.extract_size]
  · rw [Array.size_extract]
    omega

theorem Array.push_push_eq_append {α : Type} (xs : Array α) (a b : α) :
    (xs.push a).push b = xs ++ #[a, b] := by
  rw [Array.push_eq_append, Array.push_eq_append, Array.append_assoc]
  rfl

theorem exists_window {stack : Array Word} {argc : Nat} (h : argc + 2 ≤ stack.size) :
    ∃ below callee receiver args, stack = window below callee receiver args ∧
      args.size = argc := by
  obtain ⟨below, args, rfl, hargs⟩ := Array.exists_append_of_le (Nat.le_of_add_right_le h)
  rw [Array.size_append] at h
  have hreceiver : 0 < below.size := by omega
  obtain ⟨below, receiver, rfl⟩ := Array.exists_push_of_size_pos hreceiver
  rw [Array.size_push] at h
  have hcallee : 0 < below.size := by omega
  obtain ⟨below, callee, rfl⟩ := Array.exists_push_of_size_pos hcallee
  exact ⟨below, callee, receiver, args, rfl, hargs⟩

/-- The stacks have the same cells below a position. -/
def AgreeBelow (count : Nat) (stack stack' : Array Word) : Prop :=
  ∀ index < count, stack'[index]? = stack[index]?

namespace AgreeBelow

variable {count : Nat} {stack stack' stack'' : Array Word}

theorem refl (count : Nat) (stack : Array Word) : AgreeBelow count stack stack :=
  fun _ _ ↦ rfl

theorem trans (h : AgreeBelow count stack stack') (h' : AgreeBelow count stack' stack'') :
    AgreeBelow count stack stack'' :=
  fun index hindex ↦ (h' index hindex).trans (h index hindex)

theorem mono (h : AgreeBelow count stack stack') {fewer : Nat} (hle : fewer ≤ count) :
    AgreeBelow fewer stack stack' :=
  fun index hindex ↦ h index (Nat.lt_of_lt_of_le hindex hle)

theorem append (below more more' : Array Word) :
    AgreeBelow below.size (below ++ more) (below ++ more') := by
  intro index hindex
  rw [Array.getElem?_append_left hindex, Array.getElem?_append_left hindex]

theorem shrink_push (h : count ≤ stack.size) (word : Word) :
    AgreeBelow count stack ((stack.shrink count).push word) := by
  intro index hindex
  have hsize : (stack.shrink count).size = count := by
    rw [Array.size_shrink]
    omega
  rw [Array.getElem?_push_lt (by omega), Array.getElem_shrink, ← Array.getElem?_eq_getElem]

theorem shrink_eq (h : AgreeBelow count stack stack') (hle : count ≤ stack.size)
    (hle' : count ≤ stack'.size) : stack'.shrink count = stack.shrink count := by
  apply Array.ext
  · rw [Array.size_shrink, Array.size_shrink]
    omega
  · intro index hindex' hindex
    rw [Array.size_shrink] at hindex hindex'
    have hget := h index (by omega)
    rw [Array.getElem?_eq_getElem (by omega), Array.getElem?_eq_getElem (by omega)] at hget
    rw [Array.getElem_shrink, Array.getElem_shrink]
    exact Option.some.inj hget

end AgreeBelow

theorem Array.shrink_push_of_le {α : Type} {xs : Array α} {count : Nat} (h : count ≤ xs.size)
    (a : α) : (xs.push a).shrink count = xs.shrink count := by
  apply Array.ext'
  rw [Array.toList_shrink, Array.toList_shrink, Array.toList_push]
  exact List.take_append_of_le_length (by simpa using h)

/-! ## Windows -/

/-- An activation that waits for a call to come back: where it goes on, and how many operands it
has below the window of the call. -/
structure Waiting where
  function : Function
  code : Code
  bp : Nat
  pc : Nat
  operands : Nat

namespace Waiting

/-- The first cell above the operands: that of the callee in the window of the call. -/
def top (caller : Waiting) : Nat :=
  caller.bp + caller.code.slots + linkCells + caller.operands

theorem bp_le_top (caller : Waiting) : caller.bp ≤ caller.top := by
  unfold top
  omega

/-- The activation can go on with the result of the call as one more operand. -/
structure Resumable (p : Program) (caller : Waiting) : Prop where
  code : caller.function.code? = some caller.code
  behindCall : 0 < caller.pc
  pcSmall : caller.pc < codeBound
  flows : caller.code.Flows p.pool.dict caller.pc (caller.operands + 1)

end Waiting

/-- The stack has a window at a cell, with so many variables, and below it those of the activations
that wait for it, innermost first. Only the lowest window says that there is no way back, by a
saved position zero. -/
inductive Stacked (p : Program) (dict : Dictionary) (stack : Array Word) :
    Nat → Nat → List Waiting → Prop
  | lowest {slots : Nat} : stack[1 + slots + 1]? = some Word.zero →
    Stacked p dict stack 1 slots []
  | upon {slots : Nat} {caller : Waiting} {callers : List Waiting} {word : Word} :
    stack[caller.top + 1 + slots]? = some (.small caller.bp) →
    stack[caller.top + 1 + slots + 1]? = some (.small caller.pc) →
    stack[caller.top + 1 + slots + 2]? = some word →
    dict.value word = .ok (.function caller.function) → caller.Resumable p →
    Stacked p dict stack caller.bp caller.code.slots callers →
    Stacked p dict stack (caller.top + 1) slots (caller :: callers)

namespace Stacked

variable {dict dict' : Dictionary} {stack stack' : Array Word} {bp slots : Nat}
  {callers : List Waiting}

theorem uncons {caller : Waiting} (h : Stacked p dict stack bp slots (caller :: callers)) :
    bp = caller.top + 1 ∧ Stacked p dict stack caller.bp caller.code.slots callers := by
  cases h with
  | upon _ _ _ _ _ h => exact ⟨rfl, h⟩

theorem savedPc_of_lowest (h : Stacked p dict stack bp slots []) :
    stack[bp + slots + 1]? = some Word.zero := by
  cases h with
  | lowest hzero => exact hzero

/-- The cells behind the variables are those of the innermost activation that waits. -/
theorem exists_link {caller : Waiting} (h : Stacked p dict stack bp slots (caller :: callers)) :
    ∃ word, stack[bp + slots]? = some (.small caller.bp) ∧
      stack[bp + slots + 1]? = some (.small caller.pc) ∧ stack[bp + slots + 2]? = some word ∧
      dict.value word = .ok (.function caller.function) ∧ caller.Resumable p := by
  cases h with
  | upon hbp hpc hword hcaller hresumable _ => exact ⟨_, hbp, hpc, hword, hcaller, hresumable⟩

theorem of_eq {caller : Waiting} {word : Word} (hbp : bp = caller.top + 1)
    (hsavedBp : stack[bp + slots]? = some (.small caller.bp))
    (hsavedPc : stack[bp + slots + 1]? = some (.small caller.pc))
    (hword : stack[bp + slots + 2]? = some word)
    (hcaller : dict.value word = .ok (.function caller.function)) (hresumable : caller.Resumable p)
    (h : Stacked p dict stack caller.bp caller.code.slots callers) :
    Stacked p dict stack bp slots (caller :: callers) := by
  subst hbp
  exact .upon hsavedBp hsavedPc hword hcaller hresumable h

/-- Only the cells below the window and those behind its variables matter. -/
theorem congr (h : Stacked p dict stack bp slots callers) (hgrows : dict.GrowsTo dict')
    (hbelow : AgreeBelow bp stack stack')
    (hlink : ∀ offset < linkCells, stack'[bp + slots + offset]? = stack[bp + slots + offset]?) :
    Stacked p dict' stack' bp slots callers := by
  induction h with
  | lowest hzero => exact .lowest ((hlink 1 (by decide)).trans hzero)
  | @upon slots caller callers word hbp hpc hword hcaller hresumable _ ih =>
    refine .upon ((hlink 0 (by decide)).trans hbp) ((hlink 1 (by decide)).trans hpc)
      ((hlink 2 (by decide)).trans hword) (hgrows.value hcaller) hresumable
      (ih (hbelow.mono ?_) fun offset hoffset ↦ hbelow _ ?_)
    · unfold Waiting.top
      omega
    · unfold Waiting.top
      omega

/-- Inner windows lie above the cells of outer ones. -/
theorem top_lt {caller : Waiting} {inner outer : List Waiting}
    (h : Stacked p dict stack bp slots (inner ++ caller :: outer)) : caller.top < bp := by
  induction inner generalizing bp slots with
  | nil =>
    rw [h.uncons.1]
    exact Nat.lt_succ_self _
  | cons next inner ih =>
    have hlt := ih h.uncons.2
    have hbp := h.uncons.1
    unfold Waiting.top at hbp hlt ⊢
    omega

end Stacked

/-- A sound machine whose stack is made of windows, with as many operands as the position of the
code asks for. -/
structure Machine.Framed (p : Program) (objects : List Placed) (callers : List Waiting)
    (operands : Nat) (m : Machine) : Prop extends m.Sound p objects where
  size : m.stack.size = m.bp + m.code.slots + linkCells + operands
  flows : m.code.Flows p.pool.dict m.pc operands
  windows : Stacked p m.run.dict m.stack m.bp m.code.slots callers

/-! ## What a machine is about to do -/

namespace Machine

/-- The machine is about to call a function with so many arguments. -/
def AtCall (m : Machine) (argc : Nat) (f : Function) : Prop :=
  ∃ count callee, m.code.fetch? m.pc = some (.instruction (.call count)) ∧ count.toNat = argc ∧
    m.stack[m.stack.size - (argc + 2)]? = some callee ∧
    m.run.dict.value callee = .ok (.function f)

/-- The machine is about to call a compiled function. -/
def Enters (m : Machine) : Prop :=
  ∃ argc f code, m.AtCall argc f ∧ f.code? = some code

/-- The machine is about to return. -/
def AtReturn (m : Machine) : Prop :=
  m.code.fetch? m.pc = some (.instruction .ret)

theorem AtCall.unique {argc argc' : Nat} {f f' : Function} (h : m.AtCall argc f)
    (h' : m.AtCall argc' f') : argc = argc' ∧ f = f' := by
  obtain ⟨count, callee, hfetch, rfl, hcallee, hf⟩ := h
  obtain ⟨count', callee', hfetch', rfl, hcallee', hf'⟩ := h'
  obtain rfl : count = count' := by simpa [hfetch] using hfetch'
  obtain rfl : callee = callee' := by simpa [hcallee] using hcallee'
  exact ⟨rfl, Value.function.inj (Except.ok.inj (hf.symm.trans hf'))⟩

theorem not_enters_of_fetch {i : Instruction} (hfetch : m.code.fetch? m.pc = some (.instruction i))
    (hi : ∀ count, i ≠ .call count) : ¬m.Enters := by
  rintro ⟨argc, f, code, ⟨count, callee, hcall, -⟩, -⟩
  rw [hfetch] at hcall
  exact hi count (Fetched.instruction.inj (Option.some.inj hcall))

theorem not_atReturn_of_fetch {i : Instruction}
    (hfetch : m.code.fetch? m.pc = some (.instruction i)) (hi : i ≠ .ret) : ¬m.AtReturn := by
  intro hret
  exact hi (Fetched.instruction.inj (Option.some.inj (hfetch.symm.trans hret)))

theorem AtCall.not_atReturn {argc : Nat} {f : Function} (h : m.AtCall argc f) : ¬m.AtReturn := by
  obtain ⟨count, callee, hfetch, -⟩ := h
  exact not_atReturn_of_fetch hfetch (by simp)

theorem Enters.not_atReturn (h : m.Enters) : ¬m.AtReturn := by
  obtain ⟨argc, f, code, hcall, -⟩ := h
  exact hcall.not_atReturn

/-- The machine is about to neither call a compiled function nor return. -/
structure IsInside (m : Machine) : Prop where
  not_enters : ¬m.Enters
  not_atReturn : ¬m.AtReturn

theorem isInside_of_fetch {i : Instruction} (hfetch : m.code.fetch? m.pc = some (.instruction i))
    (hcall : ∀ count, i ≠ .call count) (hret : i ≠ .ret) : m.IsInside where
  not_enters := not_enters_of_fetch hfetch hcall
  not_atReturn := not_atReturn_of_fetch hfetch hret

/-- The machines are in the same activation, and the later one has added to the dictionary. -/
structure Beside (m m' : Machine) : Prop where
  bp : m'.bp = m.bp
  function : m'.function = m.function
  code : m'.code = m.code
  grows : m.run.dict.GrowsTo m'.run.dict

/-- What a step does to the windows. -/
inductive Moves (m : Machine) : List Waiting → Machine → List Waiting → Prop
  | within {m' : Machine} {callers : List Waiting} : ¬m.Enters → ¬m.AtReturn → m'.bp = m.bp →
    m'.function = m.function → m'.code = m.code → AgreeBelow m.bp m.stack m'.stack →
    Moves m callers m' callers
  | into {m' : Machine} {callers : List Waiting} {argc operands : Nat} {f : Function} :
    m.Enters → m.AtCall argc f →
    m.stack.size = m.bp + m.code.slots + linkCells + operands + (argc + 2) →
    AgreeBelow (m.bp + m.code.slots + linkCells + operands) m.stack m'.stack →
    Moves m callers m' (⟨m.function, m.code, m.bp, m.pc + 2, operands⟩ :: callers)
  | back {m' : Machine} {caller : Waiting} {callers : List Waiting} {word : Word} :
    m.AtReturn → m.stack.back? = some word → m'.stack = (m.stack.shrink caller.top).push word →
    m'.bp = caller.bp → m'.pc = caller.pc → m'.function = caller.function →
    m'.code = caller.code → Moves m (caller :: callers) m' callers

namespace Moves

variable {callers callers' : List Waiting}

theorem of_plain (h : m.Moves callers m' callers') (hcall : ¬m.Enters) (hret : ¬m.AtReturn) :
    callers' = callers ∧ AgreeBelow m.bp m.stack m'.stack := by
  cases h with
  | within _ _ _ _ _ hagree => exact ⟨rfl, hagree⟩
  | into henters => exact absurd henters hcall
  | back hreturn => exact absurd hreturn hret

theorem of_enters (h : m.Moves callers m' callers') (henters : m.Enters) :
    ∃ operands argc f, callers' = ⟨m.function, m.code, m.bp, m.pc + 2, operands⟩ :: callers ∧
      m.AtCall argc f ∧
      m.stack.size = m.bp + m.code.slots + linkCells + operands + (argc + 2) ∧
      AgreeBelow (m.bp + m.code.slots + linkCells + operands) m.stack m'.stack := by
  cases h with
  | within hcall => exact absurd henters hcall
  | into _ hcall hsize hagree => exact ⟨_, _, _, rfl, hcall, hsize, hagree⟩
  | back hreturn => exact absurd hreturn henters.not_atReturn

theorem of_return (h : m.Moves callers m' callers') (hret : m.AtReturn) :
    ∃ caller word, callers = caller :: callers' ∧ m.stack.back? = some word ∧
      m'.stack = (m.stack.shrink caller.top).push word ∧ m'.bp = caller.bp ∧
      m'.pc = caller.pc ∧ m'.function = caller.function ∧ m'.code = caller.code := by
  cases h with
  | within _ hreturn => exact absurd hret hreturn
  | into henters => exact absurd hret henters.not_atReturn
  | back _ hresult hstack hbp hpc hfunction hcode =>
    exact ⟨_, _, rfl, hresult, hstack, hbp, hpc, hfunction, hcode⟩

end Moves

/-- A step changes no record, and binds a name only to what a word at hand stands for. -/
structure Binds (objects : List Placed) (m m' : Machine) : Prop where
  records : m.run.records.Keeps m'.run.records
  globals : ∀ name value, m'.run.globals.get? name = some value →
    m.run.globals.get? name = some value ∨
      ∃ word : Word, word.Decodes m.run.dict m.heap objects m'.run.records value

theorem Binds.of_globals (hrecords : m.run.records.Keeps m'.run.records)
    (hglobals : m'.run.globals = m.run.globals) : m.Binds objects m' :=
  ⟨hrecords, fun _ _ hvalue ↦ .inl (hglobals ▸ hvalue)⟩

theorem Binds.of_set {name : String} {value : Value} {word : Word}
    (hrecords : m.run.records.Keeps m'.run.records)
    (hglobals : m'.run.globals = m.run.globals.set name value)
    (hvalue : word.Decodes m.run.dict m.heap objects m'.run.records value) :
    m.Binds objects m' := by
  refine ⟨hrecords, fun other found hfound ↦ ?_⟩
  rw [hglobals, Bindings.get?_set] at hfound
  split at hfound
  · obtain rfl := Option.some.inj hfound
    exact .inr ⟨word, hvalue⟩
  · exact .inl hfound

/-- After a step the stack is made of windows again, and no object has moved. -/
def Continues (p : Program) (objects : List Placed) (callers : List Waiting) (m m' : Machine) :
    Prop :=
  ∃ objects' callers' operands, objects <+: objects' ∧ m'.Framed p objects' callers' operands ∧
    m.Moves callers m' callers' ∧ m.Binds objects m'

/-- The outermost function is about to return: there is a result, and no way back. -/
structure IsFinal (p : Program) (objects : List Placed) (m : Machine) (result : Word)
    (m' : Machine) : Prop where
  atReturn : m.AtReturn
  step : ∀ call, Exec.step call m = .ok (some result) m'
  sound : m'.Sound p objects
  result : result.Valid m'.run.dict objects
  heap : m'.heap = m.heap
  run : m'.run = m.run

end Machine

/-! ## Steps -/

namespace Machine.Framed

variable {callers : List Waiting} {operands : Nat}

theorem link_le (h : m.Framed p objects callers operands) :
    m.bp + m.code.slots + linkCells ≤ m.stack.size := by
  rw [h.size]
  exact Nat.le_add_right _ _

theorem exists_push {kept : Nat} (h : m.Framed p objects callers (kept + 1)) :
    ∃ (below : Array Word) (word : Word), m.stack = below.push word ∧
      below.size = m.bp + m.code.slots + linkCells + kept := by
  have hsize := h.size
  have hpos : 0 < m.stack.size := by omega
  obtain ⟨below, word, hstack⟩ := Array.exists_push_of_size_pos hpos
  rw [hstack, Array.size_push] at hsize
  exact ⟨below, word, hstack, Nat.succ.inj hsize⟩

theorem exists_push_push {kept : Nat} (h : m.Framed p objects callers (kept + 2)) :
    ∃ (below : Array Word) (second word : Word), m.stack = (below.push second).push word ∧
      below.size = m.bp + m.code.slots + linkCells + kept := by
  obtain ⟨upper, word, hstack, hsize⟩ := exists_push h
  have hpos : 0 < upper.size := by omega
  obtain ⟨below, second, rfl⟩ := Array.exists_push_of_size_pos hpos
  rw [Array.size_push] at hsize
  exact ⟨below, second, word, hstack, Nat.succ.inj hsize⟩

/-- A step that replaces the uppermost operands stays in its window. -/
theorem replaces (h : m.Framed p objects callers operands) (taken left : Array Word)
    {below : Array Word} {kept : Nat} (hstack : m.stack = below ++ taken)
    (hbelow : below.size = m.bp + m.code.slots + linkCells + kept) (hinside : m.IsInside)
    {objects' : List Placed} (hs : m'.Sound p objects') (hobjects : objects <+: objects')
    (hbeside : m.Beside m') (hstack' : m'.stack = below ++ left)
    (hflows : m.code.Flows p.pool.dict m'.pc (kept + left.size)) (hbinds : m.Binds objects m') :
    m.Continues p objects callers m' := by
  obtain ⟨hbp, hfunction, hcode, hgrows⟩ := hbeside
  have hagree : AgreeBelow below.size m.stack m'.stack := by
    rw [hstack, hstack']
    exact .append below taken left
  have hwindows : Stacked p m'.run.dict m'.stack m.bp m.code.slots callers := by
    refine h.windows.congr hgrows (hagree.mono (by omega)) fun offset hoffset ↦ ?_
    exact hagree _ (by omega)
  refine ⟨objects', callers, kept + left.size, hobjects, ⟨hs, ?_, ?_, ?_⟩,
    .within hinside.not_enters hinside.not_atReturn hbp hfunction hcode (hagree.mono (by omega)),
    hbinds⟩
  · rw [hstack', Array.size_append, hbelow, hbp, hcode, Nat.add_assoc]
  · rw [hcode]
    exact hflows
  · rw [hbp, hcode]
    exact hwindows

theorem pushes (h : m.Framed p objects callers operands) {word : Word} (hinside : m.IsInside)
    (hs : m'.Sound p objects) (hbeside : m.Beside m') (hstack : m'.stack = m.stack.push word)
    (hflows : m.code.Flows p.pool.dict m'.pc (operands + 1)) (hbinds : m.Binds objects m') :
    m.Continues p objects callers m' :=
  h.replaces #[] #[word] Array.append_empty.symm h.size hinside hs (List.prefix_refl _) hbeside
    (hstack.trans Array.push_eq_append) hflows hbinds

theorem drops (h : m.Framed p objects callers operands) {below : Array Word} {word : Word}
    {kept : Nat} (hstack : m.stack = below.push word)
    (hbelow : below.size = m.bp + m.code.slots + linkCells + kept) (hinside : m.IsInside)
    (hs : m'.Sound p objects) (hbeside : m.Beside m') (hstack' : m'.stack = below)
    (hflows : m.code.Flows p.pool.dict m'.pc kept) (hbinds : m.Binds objects m') :
    m.Continues p objects callers m' :=
  h.replaces #[word] #[] (hstack.trans Array.push_eq_append) hbelow hinside hs
    (List.prefix_refl _) hbeside (hstack'.trans Array.append_empty.symm) hflows hbinds

/-- A step that writes a variable stays in its window. -/
theorem stores (h : m.Framed p objects callers operands) {below : Array Word} {word : Word}
    {slot kept : Nat} (hstack : m.stack = below.push word)
    (hbelow : below.size = m.bp + m.code.slots + linkCells + kept) (hslot : slot < m.code.slots)
    (hinside : m.IsInside) (hs : m'.Sound p objects) (hbeside : m.Beside m')
    (hstack' : m'.stack = below.setIfInBounds (m.bp + slot) word)
    (hflows : m.code.Flows p.pool.dict m'.pc kept) (hbinds : m.Binds objects m') :
    m.Continues p objects callers m' := by
  obtain ⟨hbp, hfunction, hcode, hgrows⟩ := hbeside
  have hsame {index : Nat} (hlt : index < below.size)
      (hindex : index < m.bp ∨ m.bp + m.code.slots ≤ index) :
      m'.stack[index]? = m.stack[index]? := by
    rw [hstack', hstack, Array.getElem?_setIfInBounds_ne (by omega),
      Array.getElem?_push_lt hlt, Array.getElem?_eq_getElem hlt]
  have hagree : AgreeBelow m.bp m.stack m'.stack :=
    fun index hindex ↦ hsame (by omega) (.inl hindex)
  have hwindows : Stacked p m'.run.dict m'.stack m.bp m.code.slots callers :=
    h.windows.congr hgrows hagree fun offset hoffset ↦
      hsame (by omega) (.inr (Nat.le_add_right _ _))
  refine ⟨objects, callers, kept, List.prefix_refl _, ⟨hs, ?_, ?_, ?_⟩,
    .within hinside.not_enters hinside.not_atReturn hbp hfunction hcode hagree, hbinds⟩
  · rw [hstack', Array.size_setIfInBounds, hbelow, hbp, hcode]
  · rw [hcode]
    exact hflows
  · rw [hbp, hcode]
    exact hwindows

/-- An instruction that is followed by the next one, unless it is a call. -/
theorem next_of_effect {kept taken left : Nat} (h : m.Framed p objects callers (kept + taken))
    {i : Instruction} {line : UInt32} {rest : Fragment}
    (hcode : m.code.Contains m.pc ((i, line) :: rest))
    (heffect : i.Effect p.pool.dict m.code.slots taken left) (hi : ∀ count, i ≠ .call count)
    (hflows : m.code.Flows p.pool.dict (m.pc + i.size) (kept + left)) :
    Next (fun _ _ ↦ True) (m.Continues p objects callers) m := by
  have hs := h.toSound
  have hlenient : Lenient fun _ _ ↦ True := fun _ _ _ ↦ trivial
  have hinside : m.IsInside := isInside_of_fetch hcode.fetch? hi heffect.ne_ret
  have hframe := Nat.le_trans (Nat.le_add_right _ _) h.link_le
  cases heffect with
  | const hdenotes =>
    refine .const hlenient hs hcode ((hdenotes.mono hs.grows).valid _) ?_
    rintro _ rfl hs'
    exact h.pushes hinside hs' ⟨rfl, rfl, rfl, .refl _⟩ rfl hflows (.of_globals (.refl _) rfl)
  | lookup hname =>
    refine .lookup hlenient hs hcode (hs.grows.value hname) ?_
    rintro word dict _ hencoded rfl hs'
    exact h.pushes hinside hs' ⟨rfl, rfl, rfl, hencoded.grows⟩ rfl hflows
      (.of_globals (.refl _) rfl)
  | register hname =>
    obtain ⟨below, word, hstack, hbelow⟩ := h.exists_push
    refine .register hs hcode (hs.grows.value hname) hstack ?_
    rintro _ _ _ hkeeps hdecodes rfl hs'
    exact h.drops hstack hbelow hinside hs' ⟨rfl, rfl, rfl, .refl _⟩ rfl hflows
      (.of_set hkeeps rfl hdecodes)
  | load hslot =>
    refine .load hlenient hs hcode hslot hframe ?_
    rintro word _ - rfl hs'
    exact h.pushes hinside hs' ⟨rfl, rfl, rfl, .refl _⟩ rfl hflows (.of_globals (.refl _) rfl)
  | store hslot =>
    obtain ⟨below, word, hstack, hbelow⟩ := h.exists_push
    refine .store hs hcode hslot (by omega) hstack ?_
    rintro _ rfl hs'
    exact h.stores hstack hbelow hslot hinside hs' ⟨rfl, rfl, rfl, .refl _⟩ rfl hflows
      (.of_globals (.refl _) rfl)
  | dup =>
    obtain ⟨below, word, hstack, hbelow⟩ := h.exists_push
    refine .dup hlenient hs hcode hstack ?_
    rintro _ rfl hs'
    exact h.pushes hinside hs' ⟨rfl, rfl, rfl, .refl _⟩ rfl hflows (.of_globals (.refl _) rfl)
  | pop =>
    obtain ⟨below, word, hstack, hbelow⟩ := h.exists_push
    refine .pop hs hcode hstack ?_
    rintro _ rfl hs'
    exact h.drops hstack hbelow hinside hs' ⟨rfl, rfl, rfl, .refl _⟩ rfl hflows
      (.of_globals (.refl _) rfl)
  | swap =>
    obtain ⟨below, second, word, hstack, hbelow⟩ := h.exists_push_push
    refine .swap hs hcode hstack ?_
    rintro _ rfl hs'
    exact h.replaces #[second, word] #[word, second] (hstack.trans (Array.push_push_eq_append ..))
      hbelow hinside hs' (List.prefix_refl _) ⟨rfl, rfl, rfl, .refl _⟩
      (Array.push_push_eq_append ..) hflows (.of_globals (.refl _) rfl)
  | call => exact absurd rfl (hi _)
  | @new _ shape hshape =>
    have hle : shape.size ≤ m.stack.size := by
      rw [h.size]
      omega
    obtain ⟨below, fields, hstack, hfields⟩ := Array.exists_append_of_le hle
    have hbelow : below.size = m.bp + m.code.slots + linkCells + kept := by
      have hsize := h.size
      rw [hstack, Array.size_append] at hsize
      omega
    refine .new hlenient hs hcode (hs.grows.shape hshape) hfields hstack ?_
    rintro reference _ _ _ - rfl hs'
    exact h.replaces fields #[reference] hstack hbelow hinside hs' (List.prefix_append _ _)
      ⟨rfl, rfl, rfl, .refl _⟩ Array.push_eq_append hflows (.of_globals (.refl _) rfl)
  | get hname =>
    obtain ⟨below, word, hstack, hbelow⟩ := h.exists_push
    have hname := hs.grows.value hname
    have htop := hstack.trans Array.push_eq_append
    rcases (hs.of_push hstack).2.reference_or_plain with ⟨o, ho, hview⟩ | ⟨hplain, value, hvalue⟩
    · refine .getObject hlenient hs hcode hname hstack ho hview ?_
      rintro found _ - rfl hs'
      exact h.replaces #[word] #[found] htop hbelow hinside hs' (List.prefix_refl _)
        ⟨rfl, rfl, rfl, .refl _⟩ Array.push_eq_append hflows (.of_globals (.refl _) rfl)
    · refine .getPlain hlenient hs hcode hname hstack hvalue hplain ?_ fun _ ↦ trivial
      rintro - found dict _ hencoded rfl hs'
      exact h.replaces #[word] #[found] htop hbelow hinside hs' (List.prefix_refl _)
        ⟨rfl, rfl, rfl, hencoded.grows⟩ Array.push_eq_append hflows (.of_globals (.refl _) rfl)
  | put hname =>
    obtain ⟨below, receiver, word, hstack, hbelow⟩ := h.exists_push_push
    have hname := hs.grows.value hname
    have htop := hstack.trans (Array.push_push_eq_append ..)
    have hreceiver := ((hs.of_push hstack).1.of_push rfl).2
    rcases hreceiver.reference_or_plain with ⟨o, ho, hview⟩ | ⟨hplain, value, hvalue⟩
    · refine .putObject hs hcode hname hstack ho hview ?_ fun _ ↦ trivial
      rintro offset - _ rfl hs'
      exact h.replaces #[receiver, word] #[] htop hbelow hinside hs' (List.prefix_refl _)
        ⟨rfl, rfl, rfl, .refl _⟩ Array.append_empty.symm hflows (.of_globals (.refl _) rfl)
    · refine .putPlain hs hcode hname hstack hvalue hplain ?_ fun _ _ ↦ trivial
      rintro - _ _ _ hkeeps hdecodes rfl hs'
      exact h.replaces #[receiver, word] #[] htop hbelow hinside hs' (List.prefix_refl _)
        ⟨rfl, rfl, rfl, .refl _⟩ Array.append_empty.symm hflows (.of_set hkeeps rfl hdecodes)

theorem atCall_of_window {line : UInt32} {rest : Fragment} {below args : Array Word}
    {callee receiver : Word} {f : Function} (h : m.Sound p objects)
    (hcode : m.code.Contains m.pc ((.call (.ofNat args.size), line) :: rest))
    (hstack : m.stack = window below callee receiver args)
    (hcallee : m.run.dict.value callee = .ok (.function f)) : m.AtCall args.size f := by
  refine ⟨_, callee, hcode.fetch?, h.toNat_args hstack, ?_, hcallee⟩
  have hindex : m.stack.size - (args.size + 2) = below.size := by
    rw [hstack, size_window]
    omega
  rw [hindex, hstack]
  exact window_callee ..

/-- A call from outside puts a result in the place of its window, and one from inside opens a
window above the operands that are left. -/
theorem next_of_call {kept argc : Nat} (h : m.Framed p objects callers (kept + (argc + 2)))
    {line : UInt32} {rest : Fragment}
    (hcode : m.code.Contains m.pc ((.call (.ofNat argc), line) :: rest))
    (hflows : m.code.Flows p.pool.dict (m.pc + 2) (kept + 1)) :
    Next (fun _ _ ↦ True) (m.Continues p objects callers) m := by
  have hs := h.toSound
  have hlenient : Lenient fun _ _ ↦ True := fun _ _ _ ↦ trivial
  have hsize := h.size
  have hle : argc + 2 ≤ m.stack.size := by omega
  obtain ⟨below, callee, receiver, args, hstack, rfl⟩ := exists_window hle
  have hbelow : below.size = m.bp + m.code.slots + linkCells + kept := by
    rw [hstack, size_window] at hsize
    omega
  by_cases hfunction : ∃ f, m.run.dict.value callee = .ok (.function f)
  · obtain ⟨f, hcallee⟩ := hfunction
    have hatCall := atCall_of_window hs hcode hstack hcallee
    cases hf : f.code? with
    | none =>
      obtain ⟨op, rfl⟩ := (hs.knows hcallee).builtin hf
      have hinside : m.IsInside := by
        refine ⟨?_, hatCall.not_atReturn⟩
        rintro ⟨argc, g, code, hatCall', hg⟩
        obtain ⟨-, rfl⟩ := hatCall.unique hatCall'
        simp [hf] at hg
      refine .callBuiltin hlenient hs hcode hstack hcallee ?_ fun _ _ _ _ _ _ _ _ ↦ trivial
      rintro _ _ _ _ _ word dict _ _ hpasses - hencoded rfl hs'
      exact h.replaces _ #[word] (hstack.trans (window_eq ..)) hbelow hinside hs'
        (List.prefix_refl _) ⟨rfl, rfl, rfl, hencoded.grows⟩ Array.push_eq_append hflows
        (.of_globals hpasses.keeps rfl)
    | some code =>
      have hslots := (hs.knows hcallee).arity_le_slots hf
      refine .callCompiled hlenient hs hcode hstack hcallee hf hslots (by omega) ?_
        fun _ ↦ trivial
      rintro harity caller dict log _ hgrows hcaller rfl hs'
      have hwindow : m.stack.size ≤ below.size + 1 + code.slots := by
        rw [hstack, size_window]
        omega
      have hagree : AgreeBelow m.stack.size m.stack (completed m.stack (below.size + 1) code.slots
          (.small m.bp) (.small (m.pc + 2)) caller) :=
        fun index hindex ↦ completed_below _ _ _ _ _ _ hindex
      have hwaiting : Waiting.Resumable p ⟨m.function, m.code, m.bp, m.pc + 2, kept⟩ :=
        ⟨hs.code, Nat.succ_pos _,
          Nat.lt_of_le_of_lt (hcode.next_le rfl) (hs.defined.isShort _ hs.code), hflows⟩
      have hwindows := h.windows.congr hgrows (hagree.mono (by omega)) fun offset hoffset ↦
        hagree _ (by omega)
      refine ⟨objects, _, 0, List.prefix_refl _, ⟨hs', size_completed hwindow ..,
        hs'.defined.flows hs'.code, ?_⟩, .into ⟨_, _, _, hatCall, hf⟩ hatCall
          (hsize.trans (Nat.add_assoc ..).symm) (hagree.mono (by omega)),
        .of_globals (.refl _) rfl⟩
      exact .of_eq (congrArg (· + 1) hbelow) (completed_savedBp hwindow ..)
        (completed_savedPc hwindow ..) (completed_function hwindow ..) hcaller hwaiting hwindows
  · exact .callOther hs hcode hstack (not_exists.mp hfunction) fun _ _ _ _ ↦ trivial

/-- A result lies above the cells that say how to go back. -/
theorem getElem?_link {below : Array Word} {result : Word} (hstack : m.stack = below.push result)
    (hbelow : below.size = m.bp + m.code.slots + linkCells) {offset : Nat}
    (hoffset : offset < linkCells) :
    below[m.linkStart + offset]? = m.stack[m.linkStart + offset]? := by
  rw [hstack, Array.push_eq_append, Array.getElem?_append_left]
  unfold Machine.linkStart
  omega

/-- The cells behind the variables lead back to the innermost activation that waits. -/
theorem exists_linked {caller : Waiting} {below : Array Word} {result : Word}
    (h : m.Framed p objects (caller :: callers) operands) (hstack : m.stack = below.push result)
    (hbelow : below.size = m.bp + m.code.slots + linkCells) :
    ∃ word, m.Linked below caller.bp caller.pc word ∧
      m.run.dict.value word = .ok (.function caller.function) ∧ caller.Resumable p := by
  have hlink {offset : Nat} (hoffset : offset < linkCells) := getElem?_link hstack hbelow hoffset
  have hbound := Nat.le_trans h.link_le h.size_le
  have hbp : m.bp = caller.top + 1 := h.windows.uncons.1
  have hbpSmall : caller.bp < 0x80000000 := by
    unfold Waiting.top at hbp
    unfold indexBound at hbound
    omega
  obtain ⟨word, hsavedBp, hsavedPc, hword, hcaller, hresumable⟩ := h.windows.exists_link
  exact ⟨word, ⟨(hlink (by decide : 0 < linkCells)).trans hsavedBp,
    (hlink (by decide : 1 < linkCells)).trans hsavedPc,
    (hlink (by decide : 2 < linkCells)).trans hword, hbpSmall, hresumable.pcSmall⟩,
    hcaller, hresumable⟩

/-- A return from the lowest window ends the run. -/
theorem isFinal_of_ret (h : m.Framed p objects [] 1) {line : UInt32} {rest : Fragment}
    (hcode : m.code.Contains m.pc ((.ret, line) :: rest)) :
    ∃ result m', m.IsFinal p objects result m' := by
  obtain ⟨below, result, hstack, hbelow⟩ := h.exists_push
  have hsaved : below[m.linkStart + 1]? = some Word.zero :=
    (getElem?_link hstack hbelow (by decide)).trans h.windows.savedPc_of_lowest
  obtain ⟨hs, hresult⟩ := h.toSound.of_push hstack
  exact ⟨result, _, hcode.fetch?, fun call ↦ Exec.step_last hcode hstack hsaved, hs.withPc _,
    hresult, rfl, rfl⟩

/-- A return from any other window goes back to the caller. -/
theorem next_of_ret {caller : Waiting} (h : m.Framed p objects (caller :: callers) 1)
    {line : UInt32} {rest : Fragment} (hcode : m.code.Contains m.pc ((.ret, line) :: rest))
    {E : Failure → Machine → Prop} : Next E (m.Continues p objects (caller :: callers)) m := by
  have hs := h.toSound
  obtain ⟨below, result, hstack, hbelow⟩ := h.exists_push
  obtain ⟨word, hlinked, hcaller, hresumable⟩ := h.exists_linked hstack hbelow
  obtain ⟨hbp, hcallers⟩ := h.windows.uncons
  refine .ret hs hcode hstack hlinked (Nat.ne_of_gt hresumable.behindCall) (by omega) hcaller
    hresumable.code ?_
  rintro log _ rfl hs'
  have hle : caller.top ≤ below.size := by omega
  have hstack' : (below.shrink (m.bp - 1)).push result =
      (m.stack.shrink caller.top).push result := by
    rw [hbp, Nat.add_sub_cancel, hstack, Array.shrink_push_of_le hle]
  have hagree : AgreeBelow caller.top m.stack ((below.shrink (m.bp - 1)).push result) := by
    rw [hstack']
    exact .shrink_push (by rw [hstack, Array.size_push]; omega) result
  have hsize : ((below.shrink (m.bp - 1)).push result).size = caller.top + 1 := by
    rw [hbp, Nat.add_sub_cancel, Array.size_push, Array.size_shrink, Nat.min_eq_left hle]
  have hwindows : Stacked p m.run.dict ((below.shrink (m.bp - 1)).push result) caller.bp
      caller.code.slots callers := by
    refine hcallers.congr (.refl _) (hagree.mono caller.bp_le_top) fun offset hoffset ↦ ?_
    exact hagree _ (Nat.lt_of_lt_of_le (Nat.add_lt_add_left hoffset _) (Nat.le_add_right _ _))
  exact ⟨objects, callers, caller.operands + 1, List.prefix_refl _,
    ⟨hs', hsize, hresumable.flows, hwindows⟩,
    .back hcode.fetch? (by rw [hstack]; simp) hstack' rfl rfl rfl rfl, .of_globals (.refl _) rfl⟩

theorem next_or_final_of_ret (h : m.Framed p objects callers 1) {line : UInt32} {rest : Fragment}
    (hcode : m.code.Contains m.pc ((.ret, line) :: rest)) {E : Failure → Machine → Prop} :
    Next E (m.Continues p objects callers) m ∨
      callers = [] ∧ ∃ result m', m.IsFinal p objects result m' := by
  cases callers with
  | nil => exact .inr ⟨rfl, h.isFinal_of_ret hcode⟩
  | cons caller callers => exact .inl (h.next_of_ret hcode)

/-- A jump stays in its window. -/
theorem next_of_goto (h : m.Framed p objects callers operands) {line : UInt32} {rest : Fragment}
    {target : Nat} (hcode : m.code.Contains m.pc ((.goto (.ofNat target), line) :: rest))
    (htarget : target ≤ m.code.words.size) (hflows : m.code.Flows p.pool.dict target operands) :
    Next (fun _ _ ↦ True) (m.Continues p objects callers) m := by
  have hs := h.toSound
  refine .goto hs hcode (hs.target_lt htarget) ?_
  rintro _ rfl hs'
  exact h.replaces #[] #[] Array.append_empty.symm h.size
    (isInside_of_fetch hcode.fetch? (by simp) (by simp)) hs' (List.prefix_refl _)
    ⟨rfl, rfl, rfl, .refl _⟩ Array.append_empty.symm hflows (.of_globals (.refl _) rfl)

theorem next_of_branch {kept : Nat} (h : m.Framed p objects callers (kept + 1)) {line : UInt32}
    {rest : Fragment} {target : Nat}
    (hcode : m.code.Contains m.pc ((.jumpIfFalse (.ofNat target), line) :: rest))
    (htarget : target ≤ m.code.words.size) (hnext : m.code.Flows p.pool.dict (m.pc + 2) kept)
    (hjump : m.code.Flows p.pool.dict target kept) :
    Next (fun _ _ ↦ True) (m.Continues p objects callers) m := by
  have hs := h.toSound
  obtain ⟨below, word, hstack, hbelow⟩ := h.exists_push
  refine .jumpIfFalse hs hcode (hs.target_lt htarget) hstack ?_
  rintro _ rfl hs'
  have hflows : m.code.Flows p.pool.dict (if word = Word.zero then target else m.pc + 2) kept := by
    split
    · exact hjump
    · exact hnext
  exact h.drops hstack hbelow (isInside_of_fetch hcode.fetch? (by simp) (by simp)) hs'
    ⟨rfl, rfl, rfl, .refl _⟩ rfl hflows (.of_globals (.refl _) rfl)

/-- A machine whose stack is made of windows takes a step to another such machine, or fails, or its
run has a result. -/
theorem next_or_final (h : m.Framed p objects callers operands) :
    Next (fun _ _ ↦ True) (m.Continues p objects callers) m ∨
      callers = [] ∧ ∃ result m', m.IsFinal p objects result m' := by
  cases h.flows with
  | @next _ _ _ i _ _ kept hcode heffect hflows =>
    by_cases hi : ∀ count, i ≠ .call count
    · exact .inl (h.next_of_effect hcode heffect hi hflows)
    · cases heffect with
      | call => exact .inl (h.next_of_call hcode hflows)
      | _ => exact absurd (by simp) hi
  | goto hcode htarget hflows => exact .inl (h.next_of_goto hcode htarget hflows)
  | branch hcode htarget hnext hjump => exact .inl (h.next_of_branch hcode htarget hnext hjump)
  | ret hcode => exact h.next_or_final_of_ret hcode

end Machine.Framed

end TandemScript
