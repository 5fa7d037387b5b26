import TandemScript.Proofs.Cleanness
import TandemScript.Proofs.Discipline

/-!
# Machines that run compiled functions

A clean machine that runs a function of a library is at an instruction of its code, with as many
operands as the code has there. Below lie the windows of the functions that wait, each at such an
instruction behind its call. A step takes the machine to an instruction again, opens the window of a
function of the library, or goes back to the function that waits.
-/

namespace TandemScript

/-! ## Code of a library -/

/-- Compiled code, with the heights of the stack at its instructions. -/
structure Code.Measured (lib : Library) (code : Code) (height : Nat → Nat) : Prop where
  arity : code.arity ≤ code.slots
  short : code.words.size < codeBound
  begins : ∃ i, code.Holds 0 i
  names : ∀ pc i, code.Holds pc i → i.Names lib.dict code.slots
  heights : code.HasHeights lib.dict height

theorem Code.start_of_sweepFrom {code : Code} {start count pc : Nat} {fetched : Fetched}
    {rest : List (Nat × Fetched)} (h : code.sweepFrom start count = (pc, fetched) :: rest) :
    pc = start := by
  cases count with
  | zero => cases h
  | succ count =>
    unfold Code.sweepFrom at h
    split at h
    · cases h
    · exact (Prod.mk.inj (List.cons.inj h).1).1.symm

/-- Well-formed code begins with an instruction. -/
theorem Code.WellFormed.begins {code : Code} {dict : Dictionary} {site : Site} {body : Block}
    {height : Nat → Nat} (h : code.WellFormed dict site body height) : ∃ i, code.Holds 0 i := by
  obtain ⟨front, last, -, hsweep⟩ := h.swept
  cases hcons : code.sweep with
  | nil => simp [hcons] at hsweep
  | cons first rest =>
    obtain ⟨pc, fetched⟩ := first
    obtain rfl := Code.start_of_sweepFrom hcons
    have hmem : (0, fetched) ∈ code.sweep := hcons ▸ List.mem_cons_self
    rw [hsweep] at hmem
    obtain ⟨⟨_, i⟩, -, heq⟩ := List.mem_map.mp hmem
    obtain ⟨rfl, rfl⟩ := Prod.mk.inj heq
    refine ⟨i, ?_⟩
    rw [Code.Holds, hcons]
    exact List.mem_cons_self

theorem Library.measured {lib : Library} {id : Nat} {f : Function}
    (h : lib.function? id = some f) :
    ∃ code height, f.code? = some code ∧ code.Measured lib height := by
  obtain ⟨name, params, body, enclosing, pool, pool', hnumbered, hcompile, hgrows⟩ :=
    lib.compiled id f h
  have hshort := lib.isShort id f h
  obtain ⟨-, ⟨code, hcode, hheights⟩, -⟩ := compiled_bytecode_wellFormed hnumbered hcompile
  obtain ⟨height, hwellFormed⟩ := hheights (hshort code hcode)
  have hnow := (hwellFormed lib.dict hgrows).1
  exact ⟨code, height, hcode, hnow.arity, hshort code hcode, hnow.begins, hnow.names,
    hnow.heights⟩

theorem Code.mem_sweepFrom {code : Code} {start count pc : Nat} {fetched : Fetched}
    (h : (pc, fetched) ∈ code.sweepFrom start count) : code.fetch? pc = some fetched := by
  induction count generalizing start with
  | zero => cases h
  | succ count ih =>
    unfold Code.sweepFrom at h
    split at h
    · cases h
    · next found hfound =>
      rcases List.mem_cons.mp h with heq | hrest
      · obtain ⟨rfl, rfl⟩ := Prod.mk.inj heq
        exact hfound
      · exact ih hrest

/-- An instruction that is found by reading the code is found by fetching it. -/
theorem Code.Holds.fetch? {code : Code} {pc : Nat} {i : Instruction} (h : code.Holds pc i) :
    code.fetch? pc = some (.instruction i) :=
  Code.mem_sweepFrom h

theorem Code.Holds.lt_size {code : Code} {pc : Nat} {i : Instruction} (h : code.Holds pc i) :
    pc < code.words.size := by
  have hfetch := h.fetch?
  unfold Code.fetch? at hfetch
  cases hword : code.words[pc]? with
  | none => simp [hword] at hfetch
  | some word => exact (Array.getElem?_eq_some_iff.mp hword).1

/-! ## Calls and returns -/

theorem mem_completed {stack : Array Word} {bp slots : Nat} {savedBp savedPc function word : Word}
    (h : word ∈ completed stack bp slots savedBp savedPc function) :
    word ∈ stack ∨ word = Word.undefined ∨ word = savedBp ∨ word = savedPc ∨ word = function := by
  unfold completed at h
  simp only [Array.mem_push, Array.mem_append, Array.mem_replicate] at h
  grind

namespace Exec

variable {lib : Library} {m m' : Machine} {call call' : Caller}

/-- Completing the window of a function only writes behind its parameters. -/
theorem completeWindow_ensures {bp slots : Nat} (hsize : m.stack.size ≤ bp + slots)
    (savedBp savedPc function : Word) :
    Ensures (completeWindow bp slots savedBp savedPc function) m
      (fun _ m' ↦ m' = { m with stack := completed m.stack bp slots savedBp savedPc function })
      fun _ _ ↦ True := by
  unfold Ensures completeWindow
  simp only
  split
  · next hresult =>
    split at hresult
    · cases hresult
    · cases hresult
      rw [Array.shrink_of_size_le hsize]
      rfl
  · trivial

/-- A function outside the machine answers with a value, whose word takes the place of the window of
the call. -/
theorem callOutside_works (hcall : call.Trusting lib call') (hmoves : call.Moves)
    (h : m.Works lib 0 0 m') {callee : Function} (hcallee : (Value.function callee).IsTrusted lib)
    {argc : Nat} (hargc : argc + 2 ≤ m'.stack.size) :
    Coincide (callOutside call callee (m'.stack.size - argc) argc)
      (callOutside call' callee (m'.stack.size - argc) argc) m'
      fun _ m'' ↦ m.Works lib (argc + 2) 1 m'' := by
  have hsize := h.size
  refine (Coincide.of_ensures (cell_ensures h _)).bind ?_
  rintro word _ ⟨-, rfl⟩
  refine (Coincide.of_ensures (decode_works h word)).bind ?_
  rintro receiver m₁ ⟨hreceiver, h₁⟩
  refine (Coincide.of_ensures (decodeCells_works h₁ _ argc)).bind ?_
  rintro args m₂ ⟨hargs, h₂⟩
  refine (Coincide.of_ensures (report_works h₂ _ _)).bind fun _ m₃ h₃ ↦ ?_
  refine (onRun_works h₃ (hcall callee receiver args hcallee hreceiver hargs)
    (hmoves callee receiver args)).bind ?_
  rintro value m₄ ⟨hvalue, h₄⟩
  refine (Coincide.of_ensures (encode_works h₄ hvalue)).bind ?_
  rintro result m₅ ⟨hresult, h₅⟩
  have hsize₅ := h₅.size
  have hshrink := h₅.shrink (show argc + 2 ≤ m₅.stack.size by omega)
  have hcount : m₅.stack.size - (argc + 2) = m'.stack.size - argc - 2 := by omega
  rw [hcount, Nat.zero_add] at hshrink
  refine .of_ensures (.bind_ok rfl ?_)
  exact push_works hshrink hresult

theorem returnFrom_ensures {stack : Array Word} {result caller : Word} {bp pc : Nat}
    (hstack : m.stack = stack.push result) (hlinked : m.Linked stack bp pc caller) (hpc : pc ≠ 0)
    (hbp : m.bp ≠ 0) {f : Function} {code : Code}
    (hcaller : m.run.dict.value caller = .ok (.function f)) (hf : f.code? = some code) :
    Ensures returnFrom m
      (fun found m' ↦ found = none ∧ ∃ log, m' = { m with
        pc, bp, function := f, code, run := { m.run with log }
        stack := (stack.shrink (m.bp - 1)).push result })
      fun _ _ ↦ True := by
  have hfunction : (Machine.cell { m with stack } (m.linkStart + 2) >>= m.run.dict.function) =
      .ok f :=
    (congrArg (· >>= m.run.dict.function) (Machine.cell_eq_ok hlinked.function)).trans
      (Dictionary.function_of_value hcaller)
  refine .bind_ok (pop_of_push hstack) ?_
  refine .bind_ok
    (query_of_ok (Machine.savedNumber_of_small hlinked.savedPc hlinked.pcSmall)) ?_
  rw [if_neg hpc]
  refine .bind_ok
    (query_of_ok (Machine.savedNumber_of_small hlinked.savedBp hlinked.bpSmall)) ?_
  refine .bind_ok (query_of_ok hfunction) ?_
  simp only [hf]
  refine .bind_ok rfl ?_
  simp only [if_neg hbp]
  refine ((push_spec _ result).mono (fun _ _ h ↦ h) fun _ _ _ ↦ trivial).bind ?_
  rintro _ _ ⟨rfl, -⟩
  obtain ⟨log, hreport⟩ := report_eq .trace (fun m ↦ .returned m.function.name m.stackDump)
    { m with pc, bp, function := f, code, stack := (stack.shrink (m.bp - 1)).push result }
  exact .bind_ok hreport (.pure ⟨rfl, log, rfl⟩)

end Exec

/-! ## Windows -/

/-- The function can go on with the result of its call as one more operand. -/
structure Waiting.Ready (lib : Library) (caller : Waiting) : Prop where
  library : lib.function? caller.function.id = some caller.function
  code : caller.function.code? = some caller.code
  behindCall : 0 < caller.pc
  bpSmall : caller.bp < 0x80000000
  stands : ∃ height, caller.code.Measured lib height ∧ (∃ i, caller.code.Holds caller.pc i) ∧
    height caller.pc = caller.operands + 1

theorem Waiting.Ready.pcSmall {lib : Library} {caller : Waiting} (h : caller.Ready lib) :
    caller.pc < 0x80000000 := by
  obtain ⟨height, hmeasured, ⟨i, hholds⟩, -⟩ := h.stands
  have hlt := hholds.lt_size
  have hshort := hmeasured.short
  unfold codeBound at hshort
  omega

/-- The stack has a window at a cell, with so many variables, and below it those of the functions of
a library that wait for it, innermost first. -/
inductive Piled (lib : Library) (dict : Dictionary) (stack : Array Word) :
    Nat → Nat → List Waiting → Prop
  | lowest {slots : Nat} : stack[1 + slots + 1]? = some Word.zero → Piled lib dict stack 1 slots []
  | upon {slots : Nat} {caller : Waiting} {callers : List Waiting} {word : Word} :
    stack[caller.top + 1 + slots]? = some (.small caller.bp) →
    stack[caller.top + 1 + slots + 1]? = some (.small caller.pc) →
    stack[caller.top + 1 + slots + 2]? = some word →
    dict.value word = .ok (.function caller.function) → caller.Ready lib →
    Piled lib dict stack caller.bp caller.code.slots callers →
    Piled lib dict stack (caller.top + 1) slots (caller :: callers)

theorem Piled.of_eq {lib : Library} {dict : Dictionary} {stack : Array Word} {bp slots : Nat}
    {caller : Waiting} {callers : List Waiting} {word : Word} (hbp : bp = caller.top + 1)
    (hsavedBp : stack[bp + slots]? = some (.small caller.bp))
    (hsavedPc : stack[bp + slots + 1]? = some (.small caller.pc))
    (hword : stack[bp + slots + 2]? = some word)
    (hcaller : dict.value word = .ok (.function caller.function)) (hready : caller.Ready lib)
    (h : Piled lib dict stack caller.bp caller.code.slots callers) :
    Piled lib dict stack bp slots (caller :: callers) := by
  subst hbp
  exact .upon hsavedBp hsavedPc hword hcaller hready h

/-- Only the cells below the window and those behind its variables matter. -/
theorem Piled.congr {lib : Library} {dict dict' : Dictionary} {stack stack' : Array Word}
    {bp slots : Nat} {callers : List Waiting} (h : Piled lib dict stack bp slots callers)
    (hgrows : dict.GrowsTo dict') (hbelow : AgreeBelow bp stack stack')
    (hlink : ∀ offset < linkCells, stack'[bp + slots + offset]? = stack[bp + slots + offset]?) :
    Piled lib dict' stack' bp slots callers := by
  induction h with
  | lowest hzero => exact .lowest ((hlink 1 (by decide)).trans hzero)
  | @upon slots caller callers word hbp hpc hword hcaller hready _ ih =>
    have htop : caller.bp + caller.code.slots + linkCells ≤ caller.top :=
      Nat.le_add_right _ caller.operands
    refine .upon ((hlink 0 (by decide)).trans hbp) ((hlink 1 (by decide)).trans hpc)
      ((hlink 2 (by decide)).trans hword) (hgrows.value hcaller) hready
      (ih (hbelow.mono (by omega)) fun offset hoffset ↦ hbelow _ (by omega))

/-- The cells behind the variables of a window say that there is no way back, or how to go back to
the window below. -/
theorem Piled.lowest_or_upon {lib : Library} {dict : Dictionary} {stack : Array Word}
    {bp slots : Nat} {callers : List Waiting} (h : Piled lib dict stack bp slots callers) :
    stack[bp + slots + 1]? = some Word.zero ∨
    ∃ (caller : Waiting) (rest : List Waiting) (word : Word), bp = caller.top + 1 ∧
      stack[bp + slots]? = some (.small caller.bp) ∧
      stack[bp + slots + 1]? = some (.small caller.pc) ∧ stack[bp + slots + 2]? = some word ∧
      dict.value word = .ok (.function caller.function) ∧ caller.Ready lib ∧
      Piled lib dict stack caller.bp caller.code.slots rest := by
  cases h with
  | lowest hzero => exact .inl hzero
  | upon hbp hpc hword hcaller hready hrest =>
    exact .inr ⟨_, _, _, rfl, hbp, hpc, hword, hcaller, hready, hrest⟩

/-- The machine runs a function of the library, at an instruction of its code, with the windows of
the functions that wait below its own. -/
structure Machine.Seated (lib : Library) (callers : List Waiting) (m : Machine) : Prop extends
    m.Clean lib where
  library : lib.function? m.function.id = some m.function
  code : m.function.code? = some m.code
  stands : ∃ height, m.code.Measured lib height ∧ (∃ i, m.code.Holds m.pc i) ∧
    m.stack.size = m.bp + m.code.slots + linkCells + height m.pc
  windows : Piled lib m.run.dict m.stack m.bp m.code.slots callers

/-- After a step the machine is at an instruction again, or it has a result. -/
def Machine.Settles (lib : Library) : Option Word → Machine → Prop
  | none, m => ∃ callers, m.Seated lib callers
  | some _, m => m.Clean lib

/-- The machine with its position behind an instruction. -/
abbrev Machine.past (m : Machine) (i : Instruction) : Machine :=
  { m with pc := m.pc + i.size }

/-- With its window laid out, a function of the library begins. -/
theorem Machine.Clean.begins {lib : Library} {m : Machine} (h : m.Clean lib) {f : Function}
    {code : Code} {height : Nat → Nat} (hf : lib.function? f.id = some f)
    (hcode : f.code? = some code) (hmeasured : code.Measured lib height)
    {bp savedBp savedPc : Nat} (hfits : m.stack.size ≤ bp + code.slots) {word : Word}
    (hword : word.Canonical m.run.dict) {callers : List Waiting}
    (hwindows : Piled lib m.run.dict
      (completed m.stack bp code.slots (.small savedBp) (.small savedPc) word) bp code.slots
      callers) :
    Seated lib callers { m with
      pc := 0, bp, function := f, code
      stack := completed m.stack bp code.slots (.small savedBp) (.small savedPc) word } where
  run := h.run
  stack other hother := by
    rcases mem_completed hother with hold | rfl | rfl | rfl | rfl
    · exact h.stack other hold
    · exact h.undefined
    · exact .small savedBp
    · exact .small savedPc
    · exact hword
  heap := h.heap
  library := hf
  code := hcode
  stands := by
    refine ⟨height, hmeasured, hmeasured.begins, ?_⟩
    simp only [size_completed hfits, hmeasured.heights.start]
    rfl
  windows := hwindows

namespace Machine.Seated

variable {lib : Library} {callers : List Waiting} {m m' : Machine} {call call' : Caller}
  {i : Instruction} {height : Nat → Nat}

theorem clean_past (h : m.Seated lib callers) (i : Instruction) : (m.past i).Clean lib :=
  { h with }

theorem withLog (h : m.Seated lib callers) (log : Log) :
    Seated lib callers { m with run := { m.run with log } } :=
  { h with run := { h.run with } }

/-! ## Steps inside a window -/

/-- A step does what the instruction at hand does behind its position. -/
theorem coincide_step {P : Option Word → Machine → Prop} (hholds : m.code.Holds m.pc i)
    (h : Coincide (Exec.perform call i) (Exec.perform call' i) (m.past i) P) :
    Coincide (Exec.step call) (Exec.step call') m P := by
  obtain ⟨hsame, hspec⟩ := h
  have hperform : Exec.performFetched call' (.instruction i) (m.past i) =
      Exec.performFetched call (.instruction i) (m.past i) := hsame
  have hensures : Ensures (Exec.performFetched call (.instruction i)) (m.past i) P
      fun _ _ ↦ True := hspec
  unfold Coincide Ensures Exec.step at *
  simp only [hholds.fetch?]
  cases hresult : Exec.performFetched call (.instruction i) (m.past i) with
  | ok result m' =>
    rw [hresult] at hperform hensures
    simpa only [Fetched.size, hperform, hresult, true_and] using hensures
  | error stop m' =>
    rw [hresult] at hperform
    simp only [Fetched.size, hperform, hresult, and_self]

/-- Where operands were taken and left as the instruction says, code goes on behind it. -/
theorem works (h : m.Seated lib callers) (hmeasured : m.code.Measured lib height)
    (hholds : m.code.Holds m.pc i) (hnext : m.pc + i.size ∈ i.successors m.pc)
    (hsize : m.stack.size = m.bp + m.code.slots + linkCells + height m.pc)
    (hworks : (m.past i).Works lib (i.taken lib.dict) i.left m') : m'.Seated lib callers := by
  have htakes := hmeasured.heights.takes _ _ hholds
  obtain ⟨hplace, hheight⟩ := hmeasured.heights.goesOn _ _ _ hholds hnext
  have hbp : m'.bp = m.bp := hworks.bp
  have hpc : m'.pc = m.pc + i.size := hworks.pc
  have hfunction : m'.function = m.function := hworks.function
  have hcode : m'.code = m.code := hworks.code
  have hkept := hworks.kept
  have hleft := hworks.size
  simp only at hkept hleft
  refine { hworks.toClean with
           library := ?_, code := ?_, stands := ⟨height, ?_, ?_, ?_⟩, windows := ?_ }
  · rw [hfunction]
    exact h.library
  · rw [hfunction, hcode]
    exact h.code
  · rw [hcode]
    exact hmeasured
  · rw [hcode, hpc]
    exact hplace
  · rw [hcode, hpc, hbp, hheight]
    unfold Instruction.heightAfter
    omega
  · rw [hcode, hbp]
    refine h.windows.congr hworks.grows (fun index hindex ↦ hkept index (by omega) (.inl hindex)) ?_
    intro offset hoffset
    exact hkept _ (by omega) (.inr (by omega))

/-- An instruction that neither calls nor returns nor jumps. -/
theorem step_plain (h : m.Seated lib callers) (hmeasured : m.code.Measured lib height)
    (hholds : m.code.Holds m.pc i)
    (hsize : m.stack.size = m.bp + m.code.slots + linkCells + height m.pc)
    (hcall : ∀ argc, i ≠ .call argc) (hret : i ≠ .ret) (htarget : i.target? = none) :
    Coincide (Exec.step call) (Exec.step call') m (Settles lib) := by
  have hnames := hmeasured.names _ _ hholds
  have heffect : i.Effect m.run.dict m.code.slots (i.taken lib.dict) i.left := by
    rw [← hnames.taken_eq h.run.grows]
    exact (hnames.mono h.run.grows).effect hret htarget
  have hnext : m.pc + i.size ∈ i.successors m.pc := by
    cases i with
    | ret => exact absurd rfl hret
    | goto _ | jumpIfFalse _ => cases htarget
    | _ => exact List.mem_singleton_self _
  have hsame : Exec.perform call' i = Exec.perform call i := by
    cases i with
    | call argc => exact absurd rfl (hcall argc)
    | _ => rfl
  refine coincide_step hholds ?_
  rw [hsame]
  refine .of_ensures ?_
  refine (Exec.perform_works (h.clean_past i) call heffect hcall).mono ?_ fun _ _ _ ↦ trivial
  rintro _ m' ⟨rfl, hworks⟩
  exact ⟨callers, h.works hmeasured hholds hnext hsize hworks⟩

/-- Where code goes on at another instruction of the same function with the operands that are left,
the machine stays in its window. -/
theorem jumps (h : m.Seated lib callers) (hmeasured : m.code.Measured lib height)
    {target : Nat} {stack : Array Word} (hstack : ∀ word ∈ stack, word ∈ m.stack)
    (hagree : AgreeBelow (m.bp + m.code.slots + linkCells) m.stack stack)
    (hplace : ∃ j, m.code.Holds target j)
    (hsize : stack.size = m.bp + m.code.slots + linkCells + height target) :
    Seated lib callers { m with pc := target, stack } :=
  { h with
    stack := fun word hword ↦ h.stack word (hstack word hword)
    stands := ⟨height, hmeasured, hplace, hsize⟩
    windows := h.windows.congr (.refl _) (hagree.mono (by omega)) fun offset hoffset ↦
      hagree _ (by omega) }

theorem step_goto (h : m.Seated lib callers) (hmeasured : m.code.Measured lib height)
    {target : UInt32} (hholds : m.code.Holds m.pc (.goto target))
    (hsize : m.stack.size = m.bp + m.code.slots + linkCells + height m.pc) :
    Coincide (Exec.step call) (Exec.step call') m (Settles lib) := by
  obtain ⟨hplace, hheight⟩ := hmeasured.heights.goesOn _ _ _ hholds (List.mem_singleton.mpr rfl)
  refine coincide_step hholds (.of_ensures (.bind_ok rfl (.pure ⟨callers, ?_⟩)))
  refine h.jumps hmeasured (fun _ hword ↦ hword) (.refl _ _) hplace ?_
  rw [hheight]
  exact hsize

theorem step_jumpIfFalse (h : m.Seated lib callers) (hmeasured : m.code.Measured lib height)
    {target : UInt32} (hholds : m.code.Holds m.pc (.jumpIfFalse target))
    (hsize : m.stack.size = m.bp + m.code.slots + linkCells + height m.pc) :
    Coincide (Exec.step call) (Exec.step call') m (Settles lib) := by
  have htakes : 1 ≤ height m.pc := hmeasured.heights.takes _ _ hholds
  obtain ⟨below, word, hstack⟩ := Array.exists_push_of_size_pos (show 0 < m.stack.size by omega)
  have hbelow : below.size + 1 = m.stack.size := by
    rw [hstack, Array.size_push]
  have hjump {next : Nat} (hnext : next ∈ (Instruction.jumpIfFalse target).successors m.pc) :
      Seated lib callers { m with pc := next, stack := below } := by
    obtain ⟨hplace, hheight⟩ := hmeasured.heights.goesOn _ _ _ hholds hnext
    have hafter : height next = height m.pc - 1 := hheight
    refine h.jumps hmeasured (fun other hother ↦ ?_) (fun index hindex ↦ ?_) hplace (by omega)
    · rw [hstack]
      exact Array.mem_push_of_mem word hother
    · rw [hstack, Array.getElem?_push, if_neg (by omega)]
  have hpop : Exec.pop (m.past (.jumpIfFalse target)) =
      .ok word { m.past (.jumpIfFalse target) with stack := below } :=
    Exec.pop_of_push hstack
  refine coincide_step hholds (.of_ensures (.bind_ok hpop ?_))
  split
  · exact .bind_ok rfl (.pure ⟨callers, hjump (by simp [Instruction.successors])⟩)
  · exact .pure ⟨callers, hjump List.mem_cons_self⟩

/-! ## Calls -/

/-- Behind its call the function at hand can go on. -/
theorem ready (h : m.Seated lib callers) (hmeasured : m.code.Measured lib height) {argc : UInt32}
    (hholds : m.code.Holds m.pc (.call argc))
    (hsize : m.stack.size = m.bp + m.code.slots + linkCells + height m.pc)
    (hroom : m.stack.size ≤ m.stackLimit) :
    Waiting.Ready lib ⟨m.function, m.code, m.bp, m.pc + 2, height m.pc - (argc.toNat + 2)⟩ := by
  have hnext : m.pc + 2 ∈ (Instruction.call argc).successors m.pc := List.mem_singleton_self _
  obtain ⟨hplace, hheight⟩ := hmeasured.heights.goesOn _ _ _ hholds hnext
  have hlimit : m.stack.size ≤ indexBound := Nat.le_trans hroom (Nat.min_le_right _ _)
  refine ⟨h.library, h.code, Nat.succ_pos _, ?_, height, hmeasured, hplace, hheight⟩
  unfold indexBound at hlimit
  simp only
  omega

/-- A function of the library gets a window upon that of its caller. -/
theorem callInside_seated (h : m.Seated lib callers) (hmeasured : m.code.Measured lib height)
    {argc : UInt32} (hholds : m.code.Holds m.pc (.call argc))
    (hsize : m.stack.size = m.bp + m.code.slots + linkCells + height m.pc)
    (hroom : m.stack.size ≤ m.stackLimit) (hworks : (m.past (.call argc)).Works lib 0 0 m')
    {callee : Function} (hcallee : lib.function? callee.id = some callee) {code : Code}
    (hcode : callee.code? = some code) :
    Ensures (Exec.callInside callee code (m'.stack.size - argc.toNat) argc.toNat) m'
      (fun _ m'' ↦ ∃ callers', m''.Seated lib callers') fun _ _ ↦ True := by
  have htakes : argc.toNat + 2 ≤ height m.pc := hmeasured.heights.takes _ _ hholds
  obtain ⟨found, height', hfound, hmeasured'⟩ := lib.measured hcallee
  obtain rfl := Option.some.inj (hfound.symm.trans hcode)
  have hsame : m'.stack.size = m.stack.size := hworks.size
  have hbp : m'.bp = m.bp := hworks.bp
  have hpc : m'.pc = m.pc + 2 := hworks.pc
  have hfunction : m'.function = m.function := hworks.function
  unfold Exec.callInside
  split
  · exact .of_error rfl trivial
  next harity =>
  have hslots := hmeasured'.arity
  refine .bind_ok rfl (.bind_ok rfl (.bind_ok rfl ?_))
  rw [hfunction, hbp, hpc]
  refine (Exec.internFunction_works hworks h.library).bind ?_
  rintro word m₁ ⟨hword, hcanonical, h₁, hstack⟩
  have hfits : m₁.stack.size ≤ m'.stack.size - argc.toNat - 1 + found.slots := by
    rw [hstack]
    omega
  refine (Exec.completeWindow_ensures hfits _ _ _).bind ?_
  rintro _ _ rfl
  refine .bind_ok rfl ?_
  obtain ⟨log, hreport⟩ := Exec.report_eq .trace (fun m ↦ .called m.function.name m.stackDump)
    { m₁ with
      bp := m'.stack.size - argc.toNat - 1, pc := 0, function := callee, code := found
      stack := completed m₁.stack (m'.stack.size - argc.toNat - 1) found.slots (.small m.bp)
        (.small (m.pc + 2)) word }
  refine .of_ok hreport ⟨⟨m.function, m.code, m.bp, m.pc + 2, height m.pc - (argc.toNat + 2)⟩ ::
    callers, withLog (h₁.toClean.begins hcallee hcode hmeasured' hfits hcanonical ?_) log⟩
  have hkept (index : Nat) (hindex : index < m.stack.size)
      (houtside : index < m.bp ∨ m.bp + m.code.slots ≤ index) :
      (completed m₁.stack (m'.stack.size - argc.toNat - 1) found.slots (.small m.bp)
        (.small (m.pc + 2)) word)[index]? = m.stack[index]? := by
    rw [completed_below _ _ _ _ _ _ (by rw [hstack]; omega)]
    exact h₁.kept index hindex houtside
  refine .of_eq ?_ (completed_savedBp hfits _ _ _) (completed_savedPc hfits _ _ _)
    (completed_function hfits _ _ _) hword (h.ready hmeasured hholds hsize hroom) ?_
  · unfold Waiting.top
    simp only
    omega
  · refine h.windows.congr h₁.grows (fun index hindex ↦ ?_) fun offset hoffset ↦ ?_
    · exact hkept index (by omega) (.inl hindex)
    · exact hkept _ (by omega) (.inr (by omega))

theorem step_call (hcall : call.Trusting lib call') (hmoves : call.Moves)
    (h : m.Seated lib callers) (hmeasured : m.code.Measured lib height)
    {argc : UInt32} (hholds : m.code.Holds m.pc (.call argc))
    (hsize : m.stack.size = m.bp + m.code.slots + linkCells + height m.pc)
    (hroom : m.stack.size ≤ m.stackLimit) :
    Coincide (Exec.step call) (Exec.step call') m (Settles lib) := by
  have hclean := h.clean_past (.call argc)
  have hnext : m.pc + 2 ∈ (Instruction.call argc).successors m.pc := List.mem_singleton_self _
  suffices Coincide (Exec.callFunction call argc.toNat) (Exec.callFunction call' argc.toNat)
      (m.past (.call argc)) fun _ m' ↦ ∃ callers', m'.Seated lib callers' from
    coincide_step hholds (this.bind fun _ _ h ↦ .of_ensures (.pure h))
  refine (Coincide.of_ensures (Exec.query_ensures _ _)).bind ?_
  rintro base _ ⟨hbase, rfl⟩
  split at hbase
  · cases hbase
  next hsmall =>
  obtain rfl := Except.ok.inj hbase
  refine (Coincide.of_ensures (Exec.cell_ensures hclean.refl _)).bind ?_
  rintro word _ ⟨-, rfl⟩
  refine (Coincide.of_ensures (Exec.decode_works hclean.refl word)).bind ?_
  rintro value m₁ ⟨hvalue, h₁⟩
  have hsize₁ : m₁.stack.size = (m.past (.call argc)).stack.size := h₁.size
  rw [← hsize₁] at hsmall ⊢
  cases value with
  | function callee =>
    simp only
    cases hcode : callee.code? with
    | some code =>
      exact .of_ensures
        (h.callInside_seated hmeasured hholds hsize hroom h₁ (hvalue.library hcode) hcode)
    | none =>
      refine (Exec.callOutside_works hcall hmoves h₁ hvalue (Nat.le_of_not_lt hsmall)).mono ?_
      intro _ m₂ h₂
      exact ⟨callers, h.works hmeasured hholds hnext hsize h₂⟩
  | _ => exact .of_ensures (.of_error rfl trivial)

/-! ## Returns -/

theorem step_ret (h : m.Seated lib callers) (hmeasured : m.code.Measured lib height)
    (hholds : m.code.Holds m.pc .ret)
    (hsize : m.stack.size = m.bp + m.code.slots + linkCells + height m.pc) :
    Coincide (Exec.step call) (Exec.step call') m (Settles lib) := by
  have hheight := hmeasured.heights.returns _ hholds
  obtain ⟨below, result, hstack⟩ := Array.exists_push_of_size_pos (show 0 < m.stack.size by omega)
  have hbelow : below.size + 1 = m.stack.size := by
    rw [hstack, Array.size_push]
  have hlink : linkCells = 3 := rfl
  have hlast (index : Nat) (hindex : index < below.size) : below[index]? = m.stack[index]? := by
    rw [hstack, Array.getElem?_push, if_neg (by omega)]
  have hmem (word : Word) (hword : word ∈ below) : word ∈ m.stack := by
    rw [hstack]
    exact Array.mem_push_of_mem result hword
  have hresult : result ∈ m.stack := hstack ▸ Array.mem_push_self
  refine coincide_step hholds (.of_ensures ?_)
  rcases h.windows.lowest_or_upon with hzero |
    ⟨caller, rest, word, hbp, hsavedBp, hsavedPc, hword, hcaller, hready, hrest⟩
  · rw [← hlast _ (by omega)] at hzero
    refine .bind_ok (Exec.pop_of_push (m := m.past .ret) hstack) ?_
    refine .bind_ok (Exec.query_of_ok (Machine.savedNumber_of_small hzero (by decide))) ?_
    exact .pure ((h.clean_past .ret).withStack fun word hword ↦ h.stack word (hmem word hword))
  · rw [← hlast _ (by omega)] at hsavedBp hsavedPc hword
    have hlinked : (m.past .ret).Linked below caller.bp caller.pc word :=
      ⟨hsavedBp, hsavedPc, hword, hready.bpSmall, hready.pcSmall⟩
    refine (Exec.returnFrom_ensures (m := m.past .ret) hstack hlinked
      (Nat.ne_of_gt hready.behindCall) (hbp ▸ Nat.succ_ne_zero _) hcaller hready.code).mono ?_
      fun _ _ _ ↦ trivial
    rintro _ _ ⟨rfl, log, rfl⟩
    obtain ⟨height', hmeasured', hplace, hheight'⟩ := hready.stands
    have hkept : m.bp - 1 = caller.top := by omega
    have htop : caller.top = caller.bp + caller.code.slots + linkCells + caller.operands := rfl
    have hagree : AgreeBelow caller.top m.stack ((below.shrink caller.top).push result) :=
      .trans (fun index hindex ↦ hlast index (by omega)) (.shrink_push (by omega) result)
    simp only [hkept]
    refine ⟨rest, withLog (m := { m with
      pc := caller.pc, bp := caller.bp, function := caller.function, code := caller.code
      stack := (below.shrink caller.top).push result }) ?_ log⟩
    refine { toClean := ⟨h.run, fun other hother ↦ ?_, h.heap⟩, library := hready.library,
             code := hready.code, stands := ⟨height', hmeasured', hplace, ?_⟩, windows := ?_ }
    · rcases Array.mem_push.mp hother with hold | rfl
      · exact h.stack other (hmem other (Array.mem_of_mem_shrink hold))
      · exact h.stack other hresult
    · simp only [Array.size_push, Array.size_shrink]
      omega
    · refine hrest.congr (.refl _) (hagree.mono (by omega)) fun offset hoffset ↦ ?_
      exact hagree _ (by omega)

/-! ## All steps -/

/-- A machine that runs a function of a library takes the same step with both ways of calling, and
runs such a function again. -/
theorem step (hcall : call.Trusting lib call') (hmoves : call.Moves) (h : m.Seated lib callers)
    (hroom : m.stack.size ≤ m.stackLimit) :
    Coincide (Exec.step call) (Exec.step call') m fun result m' ↦
      m'.Settles lib result ∧ m'.stack.size ≤ m'.stackLimit := by
  obtain ⟨height, hmeasured, ⟨i, hholds⟩, hsize⟩ := h.stands
  have hstep : Coincide (Exec.step call) (Exec.step call') m (Settles lib) := by
    cases i with
    | call argc => exact h.step_call hcall hmoves hmeasured hholds hsize hroom
    | ret => exact h.step_ret hmeasured hholds hsize
    | goto target => exact h.step_goto hmeasured hholds hsize
    | jumpIfFalse target => exact h.step_jumpIfFalse hmeasured hholds hsize
    | _ => exact h.step_plain hmeasured hholds hsize (by simp) (by simp) rfl
  refine ⟨hstep.1, ?_⟩
  have hsettles := hstep.2
  unfold Ensures at hsettles ⊢
  cases hresult : Exec.step call m with
  | ok result m' =>
    rw [hresult] at hsettles
    exact ⟨hsettles, ((Exec.step_moves hmoves).ok hresult).stack hroom⟩
  | error stop m' => trivial

end Machine.Seated

/-! ## New machines -/

theorem Exec.pushValues_works {lib : Library} {m m' : Machine} {taken left : Nat}
    (h : m.Works lib taken left m') {values : List Value}
    (hvalues : ∀ value ∈ values, Value.IsTrusted lib value) :
    Ensures (enter.pushValues values) m'
      (fun _ m'' ↦ m.Works lib taken (left + values.length) m'') fun _ _ ↦ True := by
  induction values generalizing left m' with
  | nil => exact .pure h
  | cons value rest ih =>
    obtain ⟨hvalue, hrest⟩ := List.forall_mem_cons.mp hvalues
    refine (encode_works h hvalue).bind ?_
    rintro word m₁ ⟨hword, h₁⟩
    refine (push_works h₁ hword).bind fun _ m₂ h₂ ↦ (ih h₂ hrest).mono ?_ fun _ _ _ ↦ trivial
    intro _ m₃ h₃
    rw [List.length_cons, Nat.add_comm rest.length 1, ← Nat.add_assoc]
    exact h₃

/-- With its outermost window laid out, a machine runs the function that it was made for. -/
theorem Exec.enter_seated {lib : Library} {st : RunState} (hst : st.Trusted lib) {f : Function}
    (hf : lib.function? f.id = some f) {code : Code} (hcode : f.code? = some code)
    {receiver : Value} {args : List Value} (harity : code.arity = args.length + 1)
    (hreceiver : receiver.IsTrusted lib) (hargs : ∀ arg ∈ args, Value.IsTrusted lib arg) :
    Ensures (enter receiver args) (.new st f code) (fun _ m ↦ m.Seated lib []) fun _ _ ↦ True := by
  have hclean : (Machine.new st f code).Clean lib :=
    ⟨{ hst with }, fun _ hword ↦ absurd hword (Array.not_mem_empty _),
      fun _ hword ↦ absurd hword (Array.not_mem_empty _)⟩
  obtain ⟨found, height, hfound, hmeasured⟩ := lib.measured hf
  obtain rfl := Option.some.inj (hfound.symm.trans hcode)
  unfold enter
  refine .bind_ok rfl ((internFunction_works hclean.refl hf).bind ?_)
  rintro word m₁ ⟨-, hcanonical, h₁, -⟩
  refine ((push_spec m₁ word).mono (fun _ _ h ↦ h) fun _ _ _ ↦ trivial).bind ?_
  rintro _ m₂ ⟨hpush, -⟩
  have h₂ : (Machine.new st f found).Works lib 0 1 m₂ := hpush ▸ h₁.push hcanonical
  have hrun : m₂.run = m₁.run := by rw [hpush]
  rw [← hrun] at hcanonical
  refine .bind_ok rfl (.bind_ok rfl ?_)
  have hclean₃ : Machine.Clean lib { m₂ with bp := m₂.stack.size } := { h₂.toClean with }
  refine (pushValues_works hclean₃.refl (List.forall_mem_cons.mpr ⟨hreceiver, hargs⟩)).bind ?_
  intro _ m₄ h₄
  have hbp : m₂.stack.size = 1 := h₂.size
  obtain ⟨run, stack, heap, pc, bp, function, code⟩ := m₄
  obtain rfl : pc = 0 := h₄.pc.trans h₂.pc
  obtain rfl : bp = 1 := h₄.bp.trans hbp
  obtain rfl : function = f := h₄.function.trans h₂.function
  obtain rfl : code = found := h₄.code.trans h₂.code
  have hsize := h₄.size
  simp only [List.length_cons, hbp] at hsize
  have hfits : stack.size ≤ 1 + code.slots := by
    have hslots := hmeasured.arity
    omega
  refine .bind_ok rfl ?_
  simp only [hbp]
  refine (completeWindow_ensures hfits _ _ _).mono ?_ fun _ _ _ ↦ trivial
  rintro _ _ rfl
  exact h₄.toClean.begins hf hcode hmeasured hfits (hcanonical.mono h₄.grows)
    (.lowest (completed_savedPc hfits _ _ _))

end TandemScript
