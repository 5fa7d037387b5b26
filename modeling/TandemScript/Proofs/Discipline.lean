import TandemScript.Proofs.Safety
import TandemScript.Proofs.Windows

/-!
# The discipline of calls

Whatever happens between a call and its return, the caller goes on with the stack that it had below
the window of the call, and with the result in place of that window. The machine of an accepted
script keeps to this in every state that its run comes to, however deeply calls are nested.
-/

namespace TandemScript

variable {p : Program} {objects : List Placed} {callers : List Waiting} {operands steps : Nat}
  {m m' m₀ : Machine}

/-! ## Runs -/

namespace Machine

/-- One step takes the machine to the next state of its run. -/
def Goes (call : Caller) (m m' : Machine) : Prop :=
  Exec.step call m = .ok none m'

/-- The state after a step, if the run goes on then. -/
def next? (call : Caller) (m : Machine) : Option Machine :=
  match Exec.step call m with
  | .ok none m' => some m'
  | _ => none

/-- The state after so many steps, if the run goes on then. -/
def after (call : Caller) (m : Machine) : (count : Nat) → Option Machine
  | 0 => some m
  | count + 1 => (m.after call count).bind (next? call)

theorem goes_of_next? {call : Caller} (h : m.next? call = some m') : m.Goes call m' := by
  unfold next? at h
  split at h
  · next hstep => rw [← Option.some.inj h, Goes, hstep]
  · cases h

/-- The run comes to a state with so many functions entered and not left again. -/
inductive Nested (call : Caller) (m : Machine) : Nat → Machine → Prop
  | start : Nested call m 0 m
  | within {calls : Nat} {m₁ m₂ : Machine} : Nested call m calls m₁ → ¬m₁.Enters →
    ¬m₁.AtReturn → m₁.Goes call m₂ → Nested call m calls m₂
  | into {calls : Nat} {m₁ m₂ : Machine} : Nested call m calls m₁ → m₁.Enters →
    m₁.Goes call m₂ → Nested call m (calls + 1) m₂
  | back {calls : Nat} {m₁ m₂ : Machine} : Nested call m (calls + 1) m₁ → m₁.AtReturn →
    m₁.Goes call m₂ → Nested call m calls m₂

end Machine

/-- The machine in which a script is run, with its outermost window laid out. -/
def Script.entered? (script : Script) (config : Config) (level : Option Level) : Option Machine :=
  match script.compile (RunState.new config level).toPool with
  | .error _ _ => none
  | .ok main pool =>
    match main.code? with
    | none => none
    | some code =>
      let st := { RunState.new config level with toPool := pool }
      match Exec.enter .undefined [] (.new { st with depth := st.depth + 1 } main code) with
      | .ok _ m => some m
      | .error _ _ => none

/-- What a step does with one caller, it does with every caller for functions of the host that is
not cut off. -/
theorem Next.of_callWithin {E : Failure → Machine → Prop} {Q : Machine → Prop} (h : Next E Q m)
    {result : Option Word} (hstep : Exec.step (Function.callWithin steps) m = .ok result m') :
    result = none ∧ Q m' := by
  have hmore := Exec.step_follows (Function.callWithin_lockstep (Nat.le_succ steps)) m m rfl
  rw [hstep] at hmore
  obtain ⟨_, hmore, rfl⟩ := hmore
  have hnative := Exec.step_follows
    (Caller.native_lockstep (Function.callWithin_callsNative steps)) m m rfl
  unfold Next Ensures at h
  cases hresult : Exec.step Caller.native m with
  | ok found m'' =>
    rw [hresult] at h hnative
    obtain ⟨_, hsame, rfl⟩ := hnative
    obtain ⟨rfl, rfl⟩ := EStateM.Result.ok.inj (hmore.symm.trans hsame)
    exact h
  | error stop m'' =>
    rw [hresult] at h hnative
    obtain ⟨failure, rfl, -⟩ := h
    rcases hnative with hwaived | ⟨_, hsame, -⟩
    · cases hwaived
    · cases hmore.symm.trans hsame

/-- A step that cannot fail is taken. -/
theorem Next.goes {call : Caller} {Q : Machine → Prop} (hcall : call.CallsNative)
    (h : Next (fun _ _ ↦ False) Q m) : ∃ m', m.Goes call m' ∧ Q m' := by
  have hfollows := Exec.step_follows (Caller.native_lockstep hcall) m m rfl
  unfold Next Ensures at h
  cases hstep : Exec.step Caller.native m with
  | ok result m' =>
    rw [hstep] at h hfollows
    obtain ⟨rfl, hQ⟩ := h
    obtain ⟨_, hgoes, rfl⟩ := hfollows
    exact ⟨m', hgoes, hQ⟩
  | error stop m' =>
    rw [hstep] at h
    obtain ⟨_, _, hfalse⟩ := h
    exact hfalse.elim

namespace Machine.Framed

theorem goes (h : m.Framed p objects callers operands)
    (hgoes : m.Goes (Function.callWithin steps) m') : m.Continues p objects callers m' := by
  rcases h.next_or_final with hnext | ⟨-, result, m'', hfinal⟩
  · exact (hnext.of_callWithin hgoes).2
  · cases (hfinal.step _).symm.trans hgoes

/-- A run keeps the windows of the callers that wait, and the cells below the innermost of these
calls. -/
theorem nested {calls : Nat} (h : m.Framed p objects callers operands)
    (hrun : m.Nested (Function.callWithin steps) calls m') :
    ∃ objects' inner operands', inner.length = calls ∧ objects <+: objects' ∧
      m'.Framed p objects' (inner ++ callers) operands' ∧
      ∀ caller outer, callers = caller :: outer → AgreeBelow caller.top m.stack m'.stack := by
  induction hrun with
  | start => exact ⟨objects, [], operands, rfl, List.prefix_refl _, h, fun _ _ _ ↦ .refl _ _⟩
  | within _ henters hreturn hgoes ih =>
    obtain ⟨objects₁, inner, operands₁, hlength, hobjects₁, h₁, hbelow⟩ := ih
    obtain ⟨objects₂, _, operands₂, hobjects₂, h₂, hmoves, -⟩ := h₁.goes hgoes
    obtain ⟨rfl, hagree⟩ := hmoves.of_plain henters hreturn
    refine ⟨objects₂, inner, operands₂, hlength, hobjects₁.trans hobjects₂, h₂, ?_⟩
    rintro caller outer rfl
    exact (hbelow caller outer rfl).trans (hagree.mono (Nat.le_of_lt h₁.windows.top_lt))
  | into _ henters hgoes ih =>
    obtain ⟨objects₁, inner, operands₁, hlength, hobjects₁, h₁, hbelow⟩ := ih
    obtain ⟨objects₂, _, operands₂, hobjects₂, h₂, hmoves, -⟩ := h₁.goes hgoes
    obtain ⟨kept, argc, f, rfl, -, -, hagree⟩ := hmoves.of_enters henters
    refine ⟨objects₂, _ :: inner, operands₂, congrArg (· + 1) hlength,
      hobjects₁.trans hobjects₂, h₂, ?_⟩
    rintro caller outer rfl
    have htop := h₁.windows.top_lt
    exact (hbelow caller outer rfl).trans (hagree.mono (by omega))
  | back _ hreturn hgoes ih =>
    obtain ⟨objects₁, inner, operands₁, hlength, hobjects₁, h₁, hbelow⟩ := ih
    obtain ⟨objects₂, _, operands₂, hobjects₂, h₂, hmoves, -⟩ := h₁.goes hgoes
    obtain ⟨last, word, hcallers, -, hstack, -⟩ := hmoves.of_return hreturn
    obtain ⟨found, inner, rfl⟩ := List.exists_cons_of_length_eq_add_one hlength
    obtain ⟨rfl, rfl⟩ := List.cons.inj hcallers
    refine ⟨objects₂, inner, operands₂, Nat.succ.inj hlength, hobjects₁.trans hobjects₂, h₂, ?_⟩
    rintro caller outer rfl
    obtain ⟨hbp, htail⟩ := h₁.windows.uncons
    have htop := htail.top_lt
    have hframe := h₁.link_le
    have hle : caller.top ≤ found.top := by
      unfold Waiting.top at htop ⊢
      omega
    rw [hstack]
    exact (hbelow caller outer rfl).trans ((AgreeBelow.shrink_push (by omega) word).mono hle)

/-- Every state of the run is one with some number of calls entered and not left again. -/
theorem exists_nested {count : Nat} (h : m.Framed p objects [] operands)
    (hafter : m.after (Function.callWithin steps) count = some m') :
    ∃ calls, m.Nested (Function.callWithin steps) calls m' := by
  induction count generalizing m' with
  | zero =>
    obtain rfl := Option.some.inj hafter
    exact ⟨0, .start⟩
  | succ count ih =>
    obtain ⟨m₁, hafter₁, hnext⟩ := Option.bind_eq_some_iff.mp hafter
    have hgoes := goes_of_next? hnext
    obtain ⟨calls, hrun⟩ := ih hafter₁
    by_cases henters : m₁.Enters
    · exact ⟨calls + 1, hrun.into henters hgoes⟩
    · by_cases hreturn : m₁.AtReturn
      · obtain ⟨objects₁, inner, operands₁, hlength, -, h₁, -⟩ := h.nested hrun
        obtain ⟨objects₂, callers₂, operands₂, -, -, hmoves, -⟩ := h₁.goes hgoes
        obtain ⟨caller, -, hcallers, -⟩ := hmoves.of_return hreturn
        rw [List.append_nil] at hcallers
        rw [hcallers, List.length_cons] at hlength
        subst hlength
        exact ⟨_, hrun.back hreturn hgoes⟩
      · exact ⟨calls, hrun.within henters hreturn hgoes⟩

/-- Where a function is about to be called, its window is complete. -/
theorem window_of_atCall (h : m.Framed p objects callers operands) {argc : Nat} {f : Function}
    (hcall : m.AtCall argc f) :
    ∃ below callee receiver args line rest kept, m.stack = window below callee receiver args ∧
      args.size = argc ∧ below.size = m.bp + m.code.slots + linkCells + kept ∧
      m.run.dict.value callee = .ok (.function f) ∧
      m.code.Contains m.pc ((.call (.ofNat args.size), line) :: rest) := by
  obtain ⟨count, callee, hfetch, rfl, hcallee, hf⟩ := hcall
  obtain ⟨kept, _, _, _, _, rfl, hcode, heffect⟩ := h.flows.exists_effect hfetch rfl (by simp)
  cases heffect with
  | @call argc =>
    have hsize := h.size
    have hle : argc + 2 ≤ m.stack.size := by omega
    obtain ⟨below, callee', receiver, args, hstack, rfl⟩ := exists_window hle
    have hbelow : below.size = m.bp + m.code.slots + linkCells + kept := by
      rw [hstack, size_window] at hsize
      omega
    have hindex : m.stack.size - (args.size + 2) = below.size := by
      rw [hstack, size_window]
      omega
    rw [h.toNat_args hstack, hindex, hstack, window_callee] at hcallee
    obtain rfl := Option.some.inj hcallee
    exact ⟨below, callee', receiver, args, _, _, kept, hstack, (h.toNat_args hstack).symm,
      hbelow, hf, hcode⟩

/-- A function that is no compiled one leaves its result in place of the window of its call. -/
theorem outside (h : m.Framed p objects callers operands) {argc : Nat} {f : Function}
    (hcall : m.AtCall argc f) (hf : f.code? = none) {result : Option Word}
    (hstep : Exec.step (Function.callWithin steps) m = .ok result m') :
    result = none ∧ ∃ word, m'.stack = (m.stack.shrink (m.stack.size - (argc + 2))).push word ∧
      m'.bp = m.bp ∧ m'.pc = m.pc + 2 ∧ m'.function = m.function ∧ m'.code = m.code := by
  obtain ⟨below, callee, receiver, args, line, rest, kept, hstack, rfl, hbelow, hcallee, hcode⟩ :=
    h.window_of_atCall hcall
  obtain ⟨op, rfl⟩ := (h.knows hcallee).builtin hf
  have hindex : m.stack.size - (args.size + 2) = below.size := by
    rw [hstack, size_window]
    omega
  have hnext : Next (fun _ _ ↦ True) (fun m' ↦ ∃ word, m'.stack = below.push word ∧
      m'.bp = m.bp ∧ m'.pc = m.pc + 2 ∧ m'.function = m.function ∧ m'.code = m.code) m := by
    refine .callBuiltin (fun _ _ _ ↦ trivial) h.toSound hcode hstack hcallee ?_
      fun _ _ _ _ _ _ _ _ ↦ trivial
    rintro _ _ _ _ _ word dict _ _ - - - rfl -
    exact ⟨word, rfl, rfl, rfl, rfl, rfl⟩
  rw [hindex, hstack, shrink_window]
  exact hnext.of_callWithin hstep

theorem ret_of_atReturn (h : m.Framed p objects callers operands) (hreturn : m.AtReturn) :
    operands = 1 ∧ ∃ line rest, m.code.Contains m.pc ((.ret, line) :: rest) := by
  cases h.flows with
  | next _ hcode heffect =>
    cases hcode.eq_of_fetch? hreturn
    cases heffect
  | goto hcode | branch hcode => cases hcode.eq_of_fetch? hreturn
  | ret hcode => exact ⟨rfl, _, _, hcode⟩

/-- A return needs no caller for functions of the host. -/
theorem step_of_atReturn (hreturn : m.AtReturn) (call call' : Caller) :
    Exec.step call m = Exec.step call' m := by
  unfold Machine.AtReturn at hreturn
  unfold Exec.step
  simp only [hreturn]
  rfl

/-- However many calls there are in between, the return of a compiled function puts its result in
place of the window of its call, and gives the caller back its place. -/
theorem inside (h : m.Framed p objects callers operands) {argc : Nat} {f : Function} {code : Code}
    (hcall : m.AtCall argc f) (hf : f.code? = some code) {m₁ m₂ : Machine}
    (hgoes : m.Goes (Function.callWithin steps) m₁)
    (hrun : m₁.Nested (Function.callWithin steps) 0 m₂) (hreturn : m₂.AtReturn) :
    ∃ result m₃, m₂.stack.back? = some result ∧ m₂.Goes (Function.callWithin steps) m₃ ∧
      m₃.stack = (m.stack.shrink (m.stack.size - (argc + 2))).push result ∧ m₃.bp = m.bp ∧
      m₃.pc = m.pc + 2 ∧ m₃.function = m.function ∧ m₃.code = m.code := by
  obtain ⟨objects₁, _, operands₁, -, h₁, hmoves, -⟩ := h.goes hgoes
  obtain ⟨kept, argc', f', rfl, hcall', hsize, hagree⟩ :=
    hmoves.of_enters ⟨argc, f, code, hcall, hf⟩
  obtain ⟨rfl, rfl⟩ := hcall.unique hcall'
  obtain ⟨objects₂, inner, operands₂, hlength, -, h₂, hbelow⟩ := h₁.nested hrun
  obtain rfl := List.eq_nil_of_length_eq_zero hlength
  obtain ⟨rfl, line, rest, hcode⟩ := h₂.ret_of_atReturn hreturn
  obtain ⟨m₃, hstep, objects₃, callers₃, operands₃, -, h₃, hmoves₃, -⟩ :=
    (h₂.next_of_ret hcode).goes Caller.native_callsNative
  have hgoes₂ : m₂.Goes (Function.callWithin steps) m₃ :=
    (step_of_atReturn hreturn _ Caller.native).trans hstep
  obtain ⟨caller, word, hcallers, hresult, hstack, hbp, hpc, hfunction, hcode⟩ :=
    hmoves₃.of_return hreturn
  obtain ⟨rfl, rfl⟩ := List.cons.inj hcallers
  have htop : m₂.bp = m.bp + m.code.slots + linkCells + kept + 1 := h₂.windows.uncons.1
  have hframe := h₂.link_le
  have hagree₂ := hagree.trans (hbelow _ _ rfl)
  refine ⟨word, m₃, hresult, hgoes₂, ?_, hbp, hpc, hfunction, hcode⟩
  have hindex : m.stack.size - (argc + 2) = m.bp + m.code.slots + linkCells + kept := by omega
  rw [hstack, hindex]
  exact congrArg (·.push word) (hagree₂.shrink_eq (by omega) (by omega))

end Machine.Framed

theorem Stacked.savedNumber_eq_zero_iff
    (h : Stacked p m.run.dict m.stack m.bp m.code.slots callers) :
    m.savedNumber (m.linkStart + 1) = .ok 0 ↔ callers = [] := by
  cases callers with
  | nil => exact iff_of_true (Machine.savedNumber_of_small h.savedPc_of_lowest (by decide)) rfl
  | cons caller callers =>
    obtain ⟨word, -, hsavedPc, -, -, hresumable⟩ := h.exists_link
    have hsaved : m.savedNumber (m.linkStart + 1) = .ok caller.pc :=
      Machine.savedNumber_of_small hsavedPc hresumable.pcSmall
    rw [hsaved]
    refine iff_of_false (fun hzero ↦ ?_) (List.cons_ne_nil _ _)
    exact absurd (Except.ok.inj hzero) (Nat.ne_of_gt hresumable.behindCall)

section Scripts

variable {script : Script} {config : Config} {level : Option Level} {main : Function} {pool : Pool}

theorem Script.Accepted.entered?_eq_some (h : script.Accepted config level main pool) {code : Code}
    (hcode : main.code? = some code) :
    script.entered? config level = some m₀ ↔
      Exec.enter .undefined [] (h.program.machine config code) = .ok () m₀ := by
  unfold Script.entered?
  rw [h.compiles]
  simp only [hcode]
  change (match Exec.enter .undefined [] (h.program.machine config code) with
    | .ok _ m => some m
    | .error _ _ => none) = some m₀ ↔ _
  cases Exec.enter .undefined [] (h.program.machine config code) with
  | ok result m => simp
  | error stop m => simp

/-- The machine of an accepted script is at the start of the main function, above the callee and an
undefined receiver. -/
theorem Script.Accepted.entered_eq (h : script.Accepted config level main pool)
    (hentered : script.entered? config level = some m₀) :
    ∃ code callee receiver dict, main.code? = some code ∧ m₀.Sound h.program [] ∧
      m₀ = { h.program.machine config code with
        bp := 1, run := { (h.program.machine config code).run with dict }
        stack := completed #[callee, receiver] 1 code.slots Word.zero Word.zero callee } := by
  obtain ⟨code, hcode, -⟩ := h.main_code
  have hspec := Exec.enter_spec (m := h.program.machine config code)
    (h.program.machine_sound config hcode)
  have henter : Exec.enter .undefined [] { h.program.machine config code with stack := #[] } =
    .ok () m₀ := (h.entered?_eq_some hcode).mp hentered
  unfold Ensures at hspec
  rw [henter] at hspec
  obtain ⟨callee, receiver, dict, -, -, -, heq, hs⟩ := hspec
  exact ⟨code, callee, receiver, dict, hcode, hs, heq⟩

/-- The lowest window is laid out before the first step. -/
theorem Script.Accepted.framed (h : script.Accepted config level main pool)
    (hentered : script.entered? config level = some m₀) :
    m₀.Framed h.program [] [] 0 ∧ m₀.run.globals = .initial := by
  obtain ⟨code, callee, receiver, dict, hcode, hs, rfl⟩ := h.entered_eq hentered
  have hsize : (#[callee, receiver] : Array Word).size ≤ 1 + code.slots :=
    h.program.main_slots hcode
  exact ⟨⟨hs, size_completed hsize .., hs.defined.flows hs.code,
    .lowest (completed_savedPc hsize ..)⟩, rfl⟩

/-- In every state that the run of an accepted script comes to: a call outside the machine puts one
result in the place of its window; a call inside it does so by the time its return is done, however
many calls there are in between, and then the caller goes on behind the call; a return finds the
variables, the cells that say how to go back, and the result in its window; and the windows of the
functions that are being called lie one upon the other, where only the lowest has zero for the
position to go back to. -/
theorem calls_keep_windows (h : script.Accepted config level main pool)
    (hentered : script.entered? config level = some m₀) {count : Nat}
    (hafter : m₀.after (Function.callWithin steps) count = some m) :
    (∀ argc f, m.AtCall argc f → argc + 2 ≤ m.stack.size) ∧
    (∀ argc f m', m.AtCall argc f → f.code? = none → m.Goes (Function.callWithin steps) m' →
      ∃ result, m'.stack = (m.stack.shrink (m.stack.size - (argc + 2))).push result) ∧
    (∀ argc f code m₁ m₂, m.AtCall argc f → f.code? = some code →
      m.Goes (Function.callWithin steps) m₁ →
      m₁.Nested (Function.callWithin steps) 0 m₂ → m₂.AtReturn →
      ∃ result m₃, m₂.stack.back? = some result ∧ m₂.Goes (Function.callWithin steps) m₃ ∧
        m₃.stack = (m.stack.shrink (m.stack.size - (argc + 2))).push result ∧ m₃.bp = m.bp ∧
        m₃.pc = m.pc + 2 ∧ m₃.function = m.function ∧ m₃.code = m.code) ∧
    (m.AtReturn → m.stack.size = m.bp + m.code.slots + linkCells + 1) ∧
    ∃ calls callers, m₀.Nested (Function.callWithin steps) calls m ∧ callers.length = calls ∧
      Stacked h.program m.run.dict m.stack m.bp m.code.slots callers ∧
      (m.savedNumber (m.linkStart + 1) = .ok 0 ↔ calls = 0) := by
  have hframed := (h.framed hentered).1
  obtain ⟨calls, hnested⟩ := hframed.exists_nested hafter
  obtain ⟨objects, callers, operands, hlength, -, hm, -⟩ := hframed.nested hnested
  rw [List.append_nil] at hm
  refine ⟨?_, ?_, ?_, ?_, calls, callers, hnested, hlength, hm.windows, ?_⟩
  · intro argc f hcall
    obtain ⟨below, callee, receiver, args, -, -, -, hstack, rfl, -⟩ := hm.window_of_atCall hcall
    rw [hstack, size_window]
    omega
  · intro argc f m' hcall hf hgoes
    obtain ⟨-, result, hstack, -⟩ := hm.outside hcall hf hgoes
    exact ⟨result, hstack⟩
  · intro argc f code m₁ m₂ hcall hf hgoes hrun hreturn
    exact hm.inside hcall hf hgoes hrun hreturn
  · intro hreturn
    obtain ⟨rfl, -⟩ := hm.ret_of_atReturn hreturn
    exact hm.size
  · rw [hm.windows.savedNumber_eq_zero_iff, ← hlength, List.length_eq_zero_iff]

end Scripts

/-- The check that a machine is about to call a compiled function. -/
def Machine.enters (m : Machine) : Bool :=
  match m.code.fetch? m.pc with
  | some (.instruction (.call count)) =>
    match (m.stack[m.stack.size - (count.toNat + 2)]?).map m.run.dict.value with
    | some (.ok (.function f)) => f.code?.isSome
    | _ => false
  | _ => false

theorem Machine.enters_of_check (h : m.enters = true) : m.Enters := by
  unfold Machine.enters at h
  split at h
  · next count hfetch =>
    split at h
    · next f hf =>
      obtain ⟨callee, hcallee, hvalue⟩ := Option.map_eq_some_iff.mp hf
      obtain ⟨code, hcode⟩ := Option.isSome_iff_exists.mp h
      exact ⟨_, f, code, ⟨count, callee, hfetch, rfl, hcallee, hvalue⟩, hcode⟩
    · cases h
  · cases h

/-- A program that calls a function of its own. -/
def identityCall : Script :=
  .ofList [.lambda (some "id") ["n"] [.returning (.read "n")],
    .returning (.applyGlobal "id" [.int 8])]

/-- The state of the machine of a script after so many steps. -/
def Script.stateAfter (script : Script) (count : Nat) : Option Machine :=
  (script.entered? {} none).bind fun m ↦ m.after (Function.callWithin 1) count

theorem identityCall_keeps_windows :
    ∃ main pool m₀ m m₁ m₂ argc f code, identityCall.Accepted {} none main pool ∧
      identityCall.entered? {} none = some m₀ ∧ m₀.after (Function.callWithin 1) 7 = some m ∧
      m.AtCall argc f ∧ f.code? = some code ∧ m.Goes (Function.callWithin 1) m₁ ∧
      m₁.Nested (Function.callWithin 1) 0 m₂ ∧ m₂.AtReturn ∧
      ∃ result m₃, m₂.stack.back? = some result ∧ m₂.Goes (Function.callWithin 1) m₃ ∧
        m₃.stack = (m.stack.shrink (m.stack.size - (argc + 2))).push result ∧ m₃.bp = m.bp ∧
        m₃.pc = m.pc + 2 ∧ m₃.function = m.function ∧ m₃.code = m.code := by
  have hcheck : identityCall.isAccepted none = true := by decide +kernel
  have hcall : (identityCall.stateAfter 7).map Machine.enters = some true := by decide +kernel
  have hload : (identityCall.stateAfter 8).map (fun m ↦ m.code.fetch? m.pc) =
    some (some (.instruction (.load 1))) := by decide +kernel
  have hret : (identityCall.stateAfter 9).map (fun m ↦ m.code.fetch? m.pc) =
    some (some (.instruction .ret)) := by decide +kernel
  obtain ⟨main, pool, h⟩ := Script.accepted_of_check hcheck {}
  obtain ⟨m₂, hstate, hreturn⟩ := Option.map_eq_some_iff.mp hret
  obtain ⟨m₀, hentered, hafter₂⟩ := Option.bind_eq_some_iff.mp hstate
  obtain ⟨m₁, hafter₁, hnext₂⟩ := Option.bind_eq_some_iff.mp hafter₂
  obtain ⟨m, hafter, hnext₁⟩ := Option.bind_eq_some_iff.mp hafter₁
  simp only [Script.stateAfter, hentered, Option.bind_some, hafter, hafter₁, Option.map_some,
    Option.some.injEq] at hcall hload
  obtain ⟨argc, f, code, hatCall, hf⟩ := Machine.enters_of_check hcall
  have hgoes := Machine.goes_of_next? hnext₁
  have hrun : m₁.Nested (Function.callWithin 1) 0 m₂ :=
    .within .start (Machine.not_enters_of_fetch hload (by simp))
      (Machine.not_atReturn_of_fetch hload (by simp)) (Machine.goes_of_next? hnext₂)
  exact ⟨main, pool, m₀, m, m₁, m₂, argc, f, code, h, hentered, hafter, hatCall, hf, hgoes, hrun,
    hreturn, (calls_keep_windows h hentered hafter).2.2.1 argc f code m₁ m₂ hatCall hf hgoes hrun
      hreturn⟩

end TandemScript
