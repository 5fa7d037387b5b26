import TandemScript.Proofs.Budget
import TandemScript.Proofs.Progress

/-!
# Safety of compiled programs

Every function that a machine runs comes to its return, by induction on the room that is left on
the stack, so that the machine of a whole program comes to the return of the main function. Such a
machine never finds its code, its stack, its heap or its dictionary inconsistent.
-/

namespace TandemScript

variable {p : Program} {objects : List Placed} {m : Machine}

/-! ## Functions -/

theorem Machine.Sound.reaches (hs : m.Sound p objects) : m.Reaches p m.pc m.stack m :=
  ⟨⟨objects, hs⟩, rfl, rfl, rfl, rfl, .refl _, rfl, rfl⟩

/-- A function comes to its return if there is room for windows of the functions that it calls. -/
theorem returning (p : Program) (room : Nat) : Returning p room := by
  induction room with
  | zero =>
    intro m objects hs _ hframe hroom
    have hlimit := hs.room
    omega
  | succ room ih =>
    intro m objects hs hpc hframe hroom
    obtain ⟨outer, params, instrs, line, fragment, hemitted⟩ := hs.defined.emitted hs.code
    have hm : m.Hosts p ⟨m.function.name, .ofFunction params (.mk instrs line) :: outer⟩ :=
      ⟨fun _ _ ↦ hemitted.slot_lt, room, ih, by omega⟩
    have hreach := hs.reaches
    rw [hpc] at hreach
    refine (hemitted.emits.complete hm hemitted.contains.left (Nat.le_of_eq hframe.symm)
      hreach).trans ?_
    rintro m₂ (⟨stack, hsame, h₂⟩ | hreturns)
    · have hcode := hemitted.contains.right
      refine (h₂.const hcode ⟨_, .entry p.undefined (by simp)⟩).mono fun m₃ h₃ ↦ ?_
      exact ⟨_, stack, _, line, [], hsame, h₃, Code.Contains.right (a := [_]) hcode⟩
    · exact .arrived hreturns

/-! ## The outermost window -/

/-- The outermost function is called with an undefined receiver and nothing else. -/
theorem Exec.pushUndefined_spec (hs : m.Sound p objects) :
    Ensures (enter.pushValues [.undefined]) m
      (fun _ m' ↦ ∃ dict receiver, m.run.dict.GrowsTo dict ∧
        dict.value receiver = .ok .undefined ∧
        m' = { m with run := { m.run with dict }, stack := m.stack.push receiver } ∧
        m'.Sound p objects)
      m.Starves := by
  have hvalid : Value.Valid p m.heap.id objects m.run.records .undefined := trivial
  refine Ensures.bind (encode_spec hs hvalid) ?_
  rintro receiver _ ⟨dict, rfl, hencoded⟩
  have hs₁ := hs.withDict hencoded.grows hencoded.entries
  have hreceiver : dict.value receiver = .ok .undefined := by
    cases hencoded.means with
    | plain hdenotes =>
      cases hdenotes with
      | entry hvalue _ => exact hvalue
  refine Ensures.bind ((push_spec _ receiver).mono (fun _ _ h ↦ h) fun _ _ h ↦ h) ?_
  rintro _ _ ⟨rfl, hroom⟩
  exact .pure ⟨dict, receiver, hencoded.grows, hreceiver, rfl,
    hs₁.push (.of_value hreceiver) hroom⟩

theorem Exec.enter_spec (hs : ({ m with stack := #[] } : Machine).Sound p objects) :
    Ensures (enter .undefined []) { m with stack := #[] }
      (fun _ m' ↦ ∃ callee receiver dict, m.run.dict.GrowsTo dict ∧
        dict.value callee = .ok (.function m.function) ∧
        dict.value receiver = .ok .undefined ∧
        m' = { m with
          bp := 1, run := { m.run with dict }
          stack := completed #[callee, receiver] 1 m.code.slots Word.zero Word.zero callee } ∧
        m'.Sound p objects)
      (Machine.Starves m) := by
  have hslots : 1 ≤ m.code.slots := by
    obtain ⟨outer, params, instrs, line, fragment, h⟩ := hs.defined.emitted hs.code
    have hle := Shape.arity_le_size params (.mk instrs line)
    have hslots : m.code.slots = _ := h.slots
    omega
  refine Ensures.bind_ok rfl (Ensures.bind ((internFunction_spec hs hs.defined.knows).mono
    (fun _ _ h ↦ h) fun _ _ h ↦ h) ?_)
  rintro callee _ ⟨dict₁, rfl, hgrows₁, hcallee, hs₁⟩
  refine Ensures.bind ((push_spec _ callee).mono (fun _ _ h ↦ h) fun _ _ h ↦ h) ?_
  rintro _ _ ⟨rfl, hroom₁⟩
  have hs₂ := hs₁.push (.of_value hcallee) hroom₁
  have hs₃ : ({ m with
      run := { m.run with dict := dict₁ }, stack := #[callee], bp := 1 } : Machine).Sound p
      objects :=
    { hs₂ with }
  refine Ensures.bind_ok rfl (Ensures.bind_ok rfl ?_)
  refine Ensures.bind ((pushUndefined_spec hs₃).mono (fun _ _ h ↦ h) fun _ _ h ↦ h) ?_
  rintro _ _ ⟨dict, receiver, hgrows, hreceiver, rfl, hs₄⟩
  have hcallee' := hgrows.value hcallee
  have hsize : 2 ≤ 1 + m.code.slots := by omega
  refine Ensures.bind_ok rfl ((completeWindow_spec hs₄ hsize (.of_small (by decide))
    (.of_small (by decide)) (.of_value hcallee')).mono ?_ fun _ _ h ↦ h)
  rintro _ _ ⟨rfl, hs₅⟩
  exact ⟨callee, receiver, dict, hgrows₁.trans hgrows, hcallee', hreceiver, rfl, hs₅⟩

/-! ## Whole programs -/

/-- The state in which a program starts after it was compiled. -/
def Program.initial (p : Program) (config : Config) : RunState :=
  { RunState.new config with toPool := p.pool }

/-- The machine in which the main function of a program is called. -/
def Program.machine (p : Program) (config : Config) (code : Code) : Machine :=
  .new { p.initial config with depth := 1 } p.main code

theorem Bindings.mem_of_find? {name : String} {value : Value} {entries : List (String × Value)}
    (h : find? name entries = some value) : (name, value) ∈ entries := by
  induction entries with
  | nil => cases h
  | cons entry rest ih =>
    obtain ⟨key, found⟩ := entry
    unfold find? at h
    split at h
    · next hkey =>
      obtain rfl := Option.some.inj h
      exact hkey ▸ List.mem_cons_self ..
    · exact List.mem_cons_of_mem _ (ih h)

theorem Bindings.get?_initial {name : String} {value : Value} (h : initial.get? name = some value) :
    (∃ op : Builtin, value = .function op.function) ∨ value = .global := by
  rcases List.mem_append.mp (mem_of_find? h) with hbuiltin | hglobal
  · obtain ⟨op, -, hentry⟩ := List.mem_map.mp hbuiltin
    exact .inl ⟨op, (Prod.mk.inj hentry).2.symm⟩
  · exact .inr (Prod.mk.inj (List.mem_singleton.mp hglobal)).2

theorem Bindings.initial_plain (p : Program) {name : String} {value : Value}
    (h : initial.get? name = some value) : value.Plain p := by
  rcases get?_initial h with ⟨op, rfl⟩ | rfl
  · exact .inl ⟨op, rfl⟩
  · trivial

theorem Program.entry_plain (p : Program) {index : Nat} {value : Value}
    (h : p.pool.dict.get? index = some value) : value.Plain p := by
  have hsettled := p.orderly.entries index value h
  cases value with
  | function f => exact .inr (.inr ⟨index, h⟩)
  | record id => exact hsettled
  | _ => trivial

theorem Program.machine_sound (p : Program) (config : Config) {code : Code}
    (hcode : p.main.code? = some code) : (p.machine config code).Sound p [] where
  grows := .refl _
  entries index value h := p.entry_plain h
  heap := .empty _ _
  stack word h := by simp [machine, Machine.new] at h
  globals name value h := (Bindings.initial_plain p h).valid _ _ _
  room := Nat.zero_le _
  defined := .inl rfl
  code := hcode

/-- One step more ends the run, with a word for a value that has a property. -/
def Machine.Concludes (P : Value → Machine → Prop) (m : Machine) : Prop :=
  ∃ word m' value m'', Exec.step Caller.native m = .ok (some word) m' ∧
    Exec.decode word m' = .ok value m'' ∧ P value m''

/-- The return of the outermost window is the last step. -/
theorem Exec.step_outermost {call : Caller} {callee receiver word : Word} {stack : Array Word}
    {slots : Nat} {line : UInt32} {rest : Fragment} (hbp : m.bp = 1) (hslots : m.code.slots = slots)
    (hsize : 2 ≤ 1 + slots) (hcode : m.code.Contains m.pc ((.ret, line) :: rest))
    (hstack : m.stack = stack.push word)
    (hsame : SameBut 1 slots
      (completed #[callee, receiver] 1 slots Word.zero Word.zero callee) stack) :
    step call m = .ok (some word) { m with pc := m.pc + 1, stack } := by
  have hlinkStart : m.linkStart = 1 + slots := by
    unfold Machine.linkStart
    rw [hbp, hslots]
  have hlink : stack[m.linkStart + 1]? = some Word.zero := by
    rw [hlinkStart]
    exact (hsame.same _ (.inr (Nat.le_succ _))).trans (completed_savedPc hsize ..)
  exact step_last hcode hstack hlink

/-- The machine of a program is entered, and then leads to its last step. -/
def Machine.Plays (E : Failure → Machine → Prop) (P : Value → Machine → Prop) (m : Machine) :
    Prop :=
  Ensures (Exec.enter .undefined []) m (fun _ m' ↦ Leads E (Machine.Concludes P) m')
    fun stop m' ↦ ∃ failure, stop = .failed failure ∧ E failure m'

theorem Program.main_slots (p : Program) {code : Code} (hcode : p.main.code? = some code) :
    2 ≤ 1 + code.slots := by
  obtain ⟨outer, params, instrs, line, fragment, h⟩ := Defines.emitted (.inl rfl) hcode
  have hle := h.slots ▸ Shape.arity_le_size params (.mk instrs line)
  omega

theorem Program.machine_plays (p : Program) (config : Config) {code : Code}
    (hcode : p.main.code? = some code) :
    (p.machine config code).Plays Permitted fun _ _ ↦ True := by
  refine (Exec.enter_spec (m := p.machine config code) (p.machine_sound config hcode)).mono ?_ ?_
  · rintro _ m ⟨callee, receiver, dict, hgrows, hcallee, hreceiver, rfl, hs⟩
    have hsize := p.main_slots hcode
    have hroom : config.stackCells < 1 + config.stackCells := by omega
    refine (returning p _ _ _ hs rfl (size_completed hsize ..) hroom).mono ?_
    rintro m' ⟨pc, stack, word, line, rest, hsame, hreach, hret⟩
    obtain ⟨objects, hs'⟩ := hreach.sound
    obtain ⟨hs'', hword⟩ := hs'.of_push hreach.stack
    obtain ⟨value, records, hdecode, -⟩ := Exec.decode_spec (hs''.withPc _) hword
    exact ⟨word, _, value, _, Exec.step_outermost hreach.bp (congrArg Code.slots hreach.code) hsize
      (hreach.contains hret) hreach.stack hsame, hdecode, trivial⟩
  · rintro _ m ⟨failure, rfl, -, -, hran⟩
    exact ⟨failure, rfl, lenient_permitted failure m hran⟩

/-- With enough steps the machine of a program ends. -/
theorem Machine.Plays.session_finishes {E : Failure → Machine → Prop}
    {P : Value → Machine → Prop} (h : m.Plays E P) :
    ∃ enough, ∀ steps, enough ≤ steps →
      Ensures (Exec.session Caller.native steps .undefined []) m P
        fun stop m' ↦ ∃ failure, stop = .failed failure ∧ E failure m' := by
  unfold Plays Ensures at h
  cases hresult : Exec.enter .undefined [] m with
  | error stop m' =>
    rw [hresult] at h
    exact ⟨0, fun steps _ ↦ .of_error (bind_of_error hresult) h⟩
  | ok _ m' =>
    rw [hresult] at h
    obtain ⟨enough, hfinishes⟩ := h.run_finishes (P := fun word m ↦
      ∃ value m', Exec.decode word m = .ok value m' ∧ P value m') fun m' hm' ↦ by
        obtain ⟨word, m₁, value, m₂, hstep, hdecode, hP⟩ := hm'
        exact ⟨word, m₁, hstep, value, m₂, hdecode, hP⟩
    refine ⟨enough, fun steps hsteps ↦ Ensures.bind_ok hresult ?_⟩
    refine Ensures.bind (hfinishes steps hsteps) ?_
    rintro word m' ⟨value, m'', hdecode, hP⟩
    exact .of_ok hdecode hP

section Scripts

variable {script : Script} {config : Config} {level : Option Level} {main : Function} {pool : Pool}

theorem Config.nestingLimit_pos (config : Config) : 0 < config.nestingLimit := by
  unfold nestingLimit maxNestedCalls
  omega

/-- A compiled function is called in a machine of its own. -/
theorem Function.callWithin_of_code {f : Function} {code : Code} (hcode : f.code? = some code)
    (receiver : Value) (args : List Value) (harity : code.arity = args.length + 1) (steps : Nat)
    {st : RunState} (hdepth : st.depth < st.config.nestingLimit) :
    f.callWithin (steps + 1) receiver args st =
      match Exec.session (Function.callWithin steps) steps receiver args
        (.new { st with depth := st.depth + 1 } f code) with
      | .ok value m => .ok value { m.run with depth := m.run.depth - 1 }
      | .error stop m => .error stop { m.run with depth := m.run.depth - 1 } := by
  have hbody : f.body = .bytecode code := by
    unfold Function.code? at hcode
    split at hcode
    · next hbody =>
      rw [hbody]
      exact congrArg _ (Option.some.inj hcode)
    · cases hcode
  have hexecute : f.execute (Function.callWithin steps) steps receiver args =
      f.runMachine (Function.callWithin steps) steps code receiver args := by
    unfold Function.execute
    rw [hcode]
    exact if_neg (not_not_intro harity)
  have hcall : f.callWithin (steps + 1) receiver args =
      Run.insideCall (f.runMachine (Function.callWithin steps) steps code receiver args) := by
    rw [← hexecute, Function.callWithin]
    simp only [hbody]
  rw [hcall, Run.insideCall_of_lt _ hdepth]
  unfold Function.runMachine
  cases Exec.session (Function.callWithin steps) steps receiver args
    (.new { st with depth := st.depth + 1 } f code) <;> rfl

theorem Script.Accepted.main_emitted (h : script.Accepted config level main pool) {code : Code}
    (hcode : main.code? = some code) :
    main.name = "main" ∧ ∃ instrs line fragment, script.body = .mk instrs line ∧
      h.program.Emitted main code [] [] instrs line fragment := by
  have hname : main.name = "main" := by
    obtain ⟨instrs, line, fragment, -, -, hmain⟩ := h.spec.2.emits.code
    rw [hmain]
    rfl
  exact ⟨hname, Program.emitted_of_emits (hname ▸ h.spec.2.emits) hcode⟩

theorem Script.Accepted.main_code (h : script.Accepted config level main pool) :
    ∃ code, main.code? = some code ∧ code.arity = 1 := by
  obtain ⟨code, hcode⟩ := h.spec.2.emits.code?_isSome
  obtain ⟨-, instrs, line, fragment, -, hemitted⟩ := h.main_emitted hcode
  exact ⟨code, hcode, hemitted.arity⟩

/-- An accepted script runs in the machine of its program. -/
theorem Script.Accepted.runOn_machine (h : script.Accepted config level main pool) {code : Code}
    (hcode : main.code? = some code) (harity : code.arity = 1) (steps : Nat) :
    script.runOn .machine (steps + 1) (.new config level) =
      match Exec.session (Function.callWithin steps) steps .undefined []
        (h.program.machine config code) with
      | .ok value m => .ok value { m.run with depth := m.run.depth - 1 }
      | .error stop m => .error stop { m.run with depth := m.run.depth - 1 } := by
  have hcompiled : Run.onPool script.compile (.new config level) =
      .ok main { RunState.new config level with toPool := pool } := by
    unfold Run.onPool
    rw [h.compiles]
  refine (bind_of_ok hcompiled).trans ?_
  exact Function.callWithin_of_code hcode .undefined [] harity steps config.nestingLimit_pos

/-- With enough steps the run of an accepted script ends as its machine does. -/
theorem Script.Accepted.runOn_finishes (h : script.Accepted config level main pool)
    {E : Failure → Machine → Prop} {P : Value → Machine → Prop}
    (hplays : ∀ code, main.code? = some code → (h.program.machine config code).Plays E P) :
    ∃ enough, ∀ steps, enough ≤ steps →
      Ensures (script.runOn .machine steps) (.new config level)
        (fun value st ↦ ∃ m, P value m ∧ st = { m.run with depth := m.run.depth - 1 })
        fun stop st ↦ ∃ failure m, stop = .failed failure ∧ E failure m ∧
          st = { m.run with depth := m.run.depth - 1 } := by
  obtain ⟨code, hcode, harity⟩ := h.main_code
  obtain ⟨enough, hfinishes⟩ := (hplays code hcode).session_finishes
  refine ⟨enough + 2, fun steps hsteps ↦ ?_⟩
  obtain ⟨more, rfl⟩ := Nat.exists_eq_add_of_le' hsteps
  have hnative := Caller.native_lockstep (Function.callWithin_callsNative (more + enough))
  have hsession := hfinishes (more + enough + 1) (by omega)
  have hfollows := Exec.session_follows hnative (Nat.le_refl (more + enough + 1)) .undefined []
    (h.program.machine config code) _ rfl
  have hrun := h.runOn_machine hcode harity (more + enough + 1)
  unfold Ensures at hsession ⊢
  rw [← Nat.add_assoc, hrun]
  cases hresult : Exec.session Caller.native (more + enough + 1) .undefined []
      (h.program.machine config code) with
  | ok value m =>
    rw [hresult] at hfollows hsession
    obtain ⟨_, hsame, rfl⟩ := hfollows
    rw [hsame]
    exact ⟨m, hsession, rfl⟩
  | error stop m =>
    rw [hresult] at hfollows hsession
    obtain ⟨failure, rfl, hE⟩ := hsession
    rcases hfollows with hwaived | ⟨_, hsame, rfl⟩
    · cases hwaived
    · rw [hsame]
      exact ⟨failure, m, rfl, hE, rfl⟩

/-- With enough steps the run of an accepted script ends, and nothing is inconsistent then, unless
the dictionary is full. -/
theorem Script.Accepted.machine_finishes (h : script.Accepted config level main pool) :
    ∃ enough, ∀ steps, enough ≤ steps →
      Ensures (script.runOn .machine steps) (.new config level) (fun _ _ ↦ True)
        fun stop st ↦ ∃ failure, stop = .failed failure ∧
          ∀ detail, failure.cause = .inconsistent detail → indexBound ≤ st.dict.size := by
  obtain ⟨enough, hfinishes⟩ := h.runOn_finishes fun _ hcode ↦ h.program.machine_plays config hcode
  refine ⟨enough, fun steps hsteps ↦ (hfinishes steps hsteps).mono (fun _ _ _ ↦ trivial) ?_⟩
  rintro _ _ ⟨failure, m, rfl, hpermitted, rfl⟩
  exact ⟨failure, rfl, hpermitted⟩

/-- A machine that runs accepted code never finds an inconsistency, whatever the limits are and
however far it goes. -/
theorem not_inconsistent_of_accepted (h : script.Accepted config level main pool) (steps : Nat)
    {failure : Failure} {st : RunState}
    (hrun : script.runOn .machine steps (.new config level) = .error (.failed failure) st)
    (hdict : st.dict.size < indexBound) (detail : Inconsistency) :
    failure.cause ≠ .inconsistent detail := by
  intro hcause
  obtain ⟨enough, hfinishes⟩ := h.machine_finishes
  have hends := hfinishes (steps + enough) (Nat.le_add_left _ _)
  have hfollows := Script.runOn_lockstep .machine (Nat.le_add_right steps enough) script
    (.new config level) _ rfl
  rw [hrun] at hfollows
  rcases hfollows with hwaived | ⟨_, hsame, rfl⟩
  · cases hwaived
  · unfold Ensures at hends
    rw [hsame] at hends
    obtain ⟨_, hfailed, hfull⟩ := hends
    cases hfailed
    exact absurd (hfull detail hcause) (Nat.not_le_of_lt hdict)

end Scripts

/-- A program that divides by zero in a function that it calls. -/
def badDivision : Script :=
  .ofList [.lambda (some "half") ["n"] [.returning (.applyGlobal "/" [.read "n", .int 0])],
    .returning (.applyGlobal "half" [.int 8])]

/-- Why a run stopped, with the size of its dictionary. -/
def failedWith : EStateM.Result Stop RunState Value → Option (Cause × Nat)
  | .error (.failed failure) st => some (failure.cause, st.dict.size)
  | _ => none

theorem badDivision_not_inconsistent :
    ∃ main pool failure st, badDivision.Accepted {} none main pool ∧
      badDivision.runOn .machine 40 (.new {}) = .error (.failed failure) st ∧
      st.dict.size < indexBound ∧ ∀ detail, failure.cause ≠ .inconsistent detail := by
  have hcheck : badDivision.isAccepted none = true := by decide +kernel
  obtain ⟨main, pool, h⟩ := Script.accepted_of_check hcheck {}
  have hfailed :
      failedWith (badDivision.runOn .machine 40 (.new {})) = some (.divisionByZero, 6) := by
    decide +kernel
  cases hrun : badDivision.runOn .machine 40 (.new {}) with
  | ok value st => simp [hrun, failedWith] at hfailed
  | error stop st =>
    cases stop with
    | unfinished => simp [hrun, failedWith] at hfailed
    | failed failure =>
      simp only [hrun, failedWith, Option.some.injEq, Prod.mk.injEq] at hfailed
      have hdict : st.dict.size < indexBound := by
        rw [hfailed.2]
        decide
      exact ⟨main, pool, failure, st, h, rfl, hdict, not_inconsistent_of_accepted h 40 hrun hdict⟩

end TandemScript
