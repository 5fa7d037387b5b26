import TandemScript.Proofs.Discipline
import TandemScript.Proofs.TrackedMachine

/-!
# Runs that follow each other

The machine of a program whose dictionary was filled before goes the same way as the one that
starts with a fresh dictionary. What makes this work is that the latter keeps to its windows: at
every position that it comes to an instruction stands in its code, so that neither machine takes an
operand, in which their codes may differ, for an operation.
-/

namespace TandemScript

variable {o : Offsets} {ρ : Renaming} {call : Caller} {p : Program} {m m' : Machine}

/-! ## Machines -/

/-- Between two steps an instruction is at hand. -/
theorem Machine.Framed.contains {objects : List Placed} {callers : List Waiting} {operands : Nat}
    (h : m.Framed p objects callers operands) :
    ∃ i line rest, m.code.Contains m.pc ((i, line) :: rest) := by
  cases h.flows with
  | next _ hcode | goto hcode | branch hcode | ret hcode => exact ⟨_, _, _, hcode⟩

namespace Exec

/-- Where an instruction is at hand, both machines take the same step, and note the same about a
failure. -/
theorem step_alongside (hcall : call.Tracks o) (h : m.Tracks o ρ m') {i : Instruction}
    {line : UInt32} {rest : Fragment} (hcode : m.code.Contains m.pc ((i, line) :: rest)) :
    AlongsideAt Machine.dictOf (Machine.Tracks o) ρ Ends (step call) (step call) m m' := by
  obtain ⟨j, hij, hfetch⟩ := h.code.fetch? hcode
  rw [h.pc] at hfetch
  have hnext : Machine.Tracks o ρ { m with pc := m.pc + i.size }
      { m' with pc := m'.pc + j.size } :=
    { h with pc := by rw [h.pc, hij.size_eq] }
  intro hroom
  have hsame : finalState (step call m') =
      finalState (perform call j { m' with pc := m'.pc + j.size }) := by
    cases hresult : perform call j { m' with pc := m'.pc + j.size } with
    | ok result n => rw [step_of_ok hfetch hresult]
    | error stop n =>
      rw [step_of_error hfetch hresult]
      rfl
  rw [hsame] at hroom
  obtain ⟨ρ', hρ, hend⟩ := perform_alongside hcall h.run.dict.undefined hij _ _ hnext hroom
  refine ⟨ρ', hρ, ?_⟩
  rcases hend.cases with ⟨result, result', n, n', hx, hy, hends, hn⟩ | ⟨stop, n, n', hx, hy, hn⟩
  · rw [step_of_ok hcode.fetch? hx, step_of_ok hfetch hy]
    exact ⟨hends, hn⟩
  · rw [step_of_error hcode.fetch? hx, step_of_error hfetch hy]
    refine ⟨?_, hn⟩
    simp only [Code.sourceLine, hij.opcode_eq, hn.function.name_eq, h.pc, hn.code.lines_eq]

/-- A whole run goes alongside. The machine with the fresh dictionary keeps to its windows, which
is what leads it from one instruction to the next. -/
theorem run_alongside {budget : Nat} (hcall : Caller.Tracks o (Function.callWithin budget))
    {objects : List Placed} {callers : List Waiting} {operands : Nat}
    (hframed : m.Framed p objects callers operands) (h : m.Tracks o ρ m') (steps : Nat) :
    AlongsideAt Machine.dictOf (Machine.Tracks o) ρ Word.Renamed
      (run (Function.callWithin budget) steps) (run (Function.callWithin budget) steps) m m' := by
  have hmoves := Function.callWithin_moves budget
  -- Each step may add entries, so the renaming grows along with the run, and the windows change.
  induction steps generalizing ρ m m' objects callers operands with
  | zero => exact fun _ ↦ ⟨ρ, .refl ρ, rfl, h⟩
  | succ steps ih =>
    obtain ⟨i, line, rest, hcode⟩ := hframed.contains
    refine (step_alongside hcall h hcode).bind (fun result ↦ ?_) ?_
    · cases result with
      | some word => exact .pure word
      | none => exact (run_moves hmoves steps).grows
    · intro ρ' result result' n n' _ hgoes hends hn
      cases hends with
      | some hword => exact Alongside.pure hword _ _ hn
      | none =>
        obtain ⟨objects', callers', operands', -, hframed', -⟩ := hframed.goes hgoes
        exact ih hframed' hn

theorem pushValues_alongside {values values' : List Value}
    (h : List.Forall₂ (Value.Renamed ρ) values values') :
    Alongside Machine.dictOf (Machine.Tracks o) ρ (fun _ _ _ ↦ True) (enter.pushValues values)
      (enter.pushValues values') := by
  induction values generalizing ρ values' with
  | nil =>
    cases h
    exact .pure trivial
  | cons value rest ih =>
    cases h with
    | cons hvalue hrest =>
      refine .bind (encode_alongside hvalue)
        (fun _ ↦ (Moves.bind (push_moves _) fun _ ↦ pushValues_moves _).later.grows)
        fun ρ' word word' hρ hword ↦ ?_
      exact .after (push_parallel hword) fun _ _ _ ↦ ih (hrest.imp fun _ _ h ↦ h.mono hρ)

/-- The outermost window is laid out alongside. -/
theorem enter_alongside {receiver receiver' : Value} {args args' : List Value}
    (hundefined : ρ.entry 0 0) (hreceiver : receiver.Renamed ρ receiver')
    (hargs : List.Forall₂ (Value.Renamed ρ) args args') :
    Alongside Machine.dictOf (Machine.Tracks o) ρ (fun _ _ _ ↦ True) (enter receiver args)
      (enter receiver' args') := by
  refine .after (read_parallel fun _ _ h ↦ h.function) fun f f' hf ↦ ?_
  refine .bind (onRun_alongside (Run.onDict_alongside (Dictionary.intern_alongside (.function hf))))
    (fun _ ↦ ?_) fun ρ' callee callee' hρ hcallee ↦ ?_
  · refine .bind (push_moves _).later.grows fun _ ↦ .bind (read_moves _).later.grows fun _ ↦ ?_
    refine .bind (.modify fun _ ↦ rfl) fun _ ↦ .bind (pushValues_moves _).later.grows fun _ ↦ ?_
    exact .bind (read_moves _).later.grows fun _ ↦ (completeWindow_moves _ _ _ _ _).later.grows
  refine .after (push_parallel hcallee) fun _ _ _ ↦ ?_
  refine .after (R := Eq) (read_parallel fun _ _ h ↦ h.stack.size_eq) fun bp _ hbp ↦ ?_
  subst hbp
  refine .after (.modify fun _ _ h ↦ { h with bp := rfl }) fun _ _ _ ↦ ?_
  have hvalues : List.Forall₂ (Value.Renamed ρ') (receiver :: args) (receiver' :: args') :=
    .cons (hreceiver.mono hρ) (hargs.imp fun _ _ h ↦ h.mono hρ)
  refine .bind (pushValues_alongside hvalues)
    (fun _ ↦ (Moves.bind (read_moves _) fun _ ↦ completeWindow_moves _ _ _ _ _).later.grows)
    fun ρ'' _ _ hρ' _ ↦ ?_
  refine .of_parallel (.bind (R := Eq) (read_parallel fun _ _ h ↦ h.code.slots_eq) ?_)
  rintro slots _ rfl
  exact completeWindow_parallel bp slots (Word.renamed_small ρ'' 0) (Word.renamed_small ρ'' 0)
    (hcallee.mono hρ') (hρ'.entry _ _ (hρ.entry _ _ hundefined))

/-- The whole life of a machine goes alongside. -/
theorem session_alongside {budget : Nat} (hcall : Caller.Tracks o (Function.callWithin budget))
    (h : m.Tracks o ρ m') {receiver receiver' : Value} {args args' : List Value}
    (hreceiver : receiver.Renamed ρ receiver') (hargs : List.Forall₂ (Value.Renamed ρ) args args')
    (hframed : ∀ n, enter receiver args m = .ok () n →
      ∃ objects callers operands, n.Framed p objects callers operands) (steps : Nat) :
    AlongsideAt Machine.dictOf (Machine.Tracks o) ρ Value.Renamed
      (session (Function.callWithin budget) steps receiver args)
      (session (Function.callWithin budget) steps receiver' args') m m' := by
  have hgrows := (run_moves (Function.callWithin_moves budget) steps).grows
  refine (enter_alongside h.run.dict.undefined hreceiver hargs m m' h).bind
    (fun _ ↦ .bind hgrows fun _ ↦ (decode_moves _).later.grows) fun ρ' _ _ n n' _ hentered _ hn ↦ ?_
  obtain ⟨objects, callers, operands, hframed'⟩ := hframed n hentered
  refine (run_alongside hcall hframed' hn steps).bind (fun _ ↦ (decode_moves _).later.grows) ?_
  intro ρ'' word word' k k' _ _ hword hk
  exact Alongside.of_parallel (decode_parallel hword) _ _ hk

end Exec

/-- Two machines that were just made hold the same. -/
theorem Machine.new_tracks {st st' : RunState} (h : st.Tracks o ρ st') {f f' : Function}
    (hf : f.Renamed ρ f') {code code' : Code} (hcode : code.Renamed ρ code') :
    (Machine.new st f code).Tracks o ρ (Machine.new st' f' code') := by
  have hheaps : st'.heapCount + 1 = st.heapCount + 1 + o.heaps := by
    rw [h.heaps]
    omega
  refine ⟨{ h with heaps := hheaps }, .empty, ⟨?_, ?_, .empty⟩, rfl, rfl, hf, hcode⟩
  · exact (h.shifts.heap _ _).mpr hheaps
  · exact congrArg Config.heapCells h.config

/-! ## Calls -/

/-- Functions of the host that are built in are called alike, with any budget. -/
theorem Function.callWithin_tracks (o : Offsets) (steps : Nat) :
    Caller.Tracks o (Function.callWithin steps) := by
  intro ρ op receiver receiver' args args' hargs
  cases steps with
  | zero => exact fun _ _ h ↦ ⟨rfl, h⟩
  | succ steps => exact Run.builtin_parallel op receiver receiver' hargs

theorem Function.Renamed.of_code? {f f' : Function} (h : f.Renamed ρ f') {code : Code}
    (hcode : f.code? = some code) : ∃ code', f'.code? = some code' ∧ code.Renamed ρ code' := by
  cases h with
  | builtin op => cases hcode
  | @compiled _ _ _ _ code' _ hcodes =>
    obtain rfl := Option.some.inj hcode
    exact ⟨code', rfl, hcodes⟩

/-- What a call of compiled code comes to is what its machine comes to. -/
theorem Function.callWithin_eq_session {f : Function} {code : Code} (hcode : f.code? = some code)
    (receiver : Value) (args : List Value) (harity : code.arity = args.length + 1) (steps : Nat)
    {st : RunState} (hdepth : st.depth < st.config.nestingLimit) :
    f.callWithin (steps + 1) receiver args st =
      resultWithin (fun m : Machine ↦ { m.run with depth := m.run.depth - 1 }) (fun stop ↦ stop)
        (Exec.session (Function.callWithin steps) steps receiver args
          (.new { st with depth := st.depth + 1 } f code)) := by
  rw [callWithin_of_code hcode receiver args harity steps hdepth]
  cases Exec.session (Function.callWithin steps) steps receiver args
    (.new { st with depth := st.depth + 1 } f code) <;> rfl

/-- A compiled function is called alongside, in machines of its own. -/
theorem Function.callWithin_alongside {st st' : RunState} (h : st.Tracks o ρ st')
    {f f' : Function} (hf : f.Renamed ρ f') {code : Code} (hcode : f.code? = some code)
    {receiver receiver' : Value} {args args' : List Value}
    (hreceiver : receiver.Renamed ρ receiver') (hargs : List.Forall₂ (Value.Renamed ρ) args args')
    (harity : code.arity = args.length + 1) (hdepth : st.depth < st.config.nestingLimit)
    (hframed : ∀ n,
      Exec.enter receiver args (.new { st with depth := st.depth + 1 } f code) = .ok () n →
      ∃ objects callers operands, n.Framed p objects callers operands) (steps : Nat) :
    AlongsideAt RunState.dictOf (RunState.Tracks o) ρ Value.Renamed
      (f.callWithin steps receiver args) (f'.callWithin steps receiver' args') st st' := by
  cases steps with
  | zero => exact fun _ ↦ ⟨ρ, .refl ρ, rfl, h⟩
  | succ steps =>
    obtain ⟨code', hcode', hcodes⟩ := hf.of_code? hcode
    have harity' : code'.arity = args'.length + 1 := by
      rw [← hcodes.arity_eq, harity, hargs.length_eq]
    have hdepth' : st'.depth < st'.config.nestingLimit := by
      rw [← h.depth, ← h.config]
      exact hdepth
    have hinside : RunState.Tracks o ρ { st with depth := st.depth + 1 }
        { st' with depth := st'.depth + 1 } :=
      { h with depth := congrArg (· + 1) h.depth }
    refine (Exec.session_alongside (Function.callWithin_tracks o steps)
      (Machine.new_tracks hinside hf hcodes) hreceiver hargs hframed steps).lift
      (callWithin_eq_session hcode receiver args harity steps hdepth)
      (callWithin_eq_session hcode' receiver' args' harity' steps hdepth') (fun _ ↦ rfl) ?_
    intro ρ' m m' _ hm
    exact { hm.run with depth := congrArg (· - 1) hm.run.depth }

/-! ## Scripts -/

/-- The functions of the script, if it compiles at all, have short code. -/
def Script.IsShort (script : Script) : Prop :=
  ∀ main pool, script.compile (RunState.new {}).toPool = .ok main pool →
    main.IsShort ∧ ∀ index f, pool.dict.get? index = some (.function f) → f.IsShort

section Scripts

variable {script : Script} {config : Config} {main : Function} {pool : Pool}

theorem Script.IsShort.accepted (h : script.IsShort)
    (hcompiles : script.compile (RunState.new config).toPool = .ok main pool) :
    script.Accepted config none main pool :=
  ⟨hcompiles, (h main pool hcompiles).1, (h main pool hcompiles).2⟩

theorem Script.Accepted.isShort_script (h : script.Accepted config none main pool) :
    script.IsShort := by
  intro main' pool' hcompiles
  obtain ⟨rfl, rfl⟩ := EStateM.Result.ok.inj (h.compiles.symm.trans hcompiles)
  exact ⟨h.mainIsShort, h.isShort⟩

theorem Run.onPool_eq_ok {α : Type} {x : Compile α} {st st' : RunState} {a : α}
    (h : onPool x st = .ok a st') :
    ∃ pool, x st.toPool = .ok a pool ∧ st' = { st with toPool := pool } := by
  unfold onPool at h
  cases hx : x st.toPool with
  | ok b pool =>
    rw [hx] at h
    obtain ⟨rfl, rfl⟩ := EStateM.Result.ok.inj h
    exact ⟨pool, rfl, rfl⟩
  | error failure pool =>
    rw [hx] at h
    cases h

/-- A script is compiled and run alongside its run from a fresh state. -/
theorem Script.runOn_alongside (hshort : script.IsShort) {st : RunState}
    (h : (RunState.new config).Tracks o ρ st) (steps : Nat) :
    AlongsideAt RunState.dictOf (RunState.Tracks o) ρ Value.Renamed
      (script.runOn .machine steps) (script.runOn .machine steps) (.new config) st := by
  have hcompile : Alongside RunState.dictOf (RunState.Tracks o) ρ Function.Renamed
      (Run.onPool script.compile) (Run.onPool script.compile) :=
    Run.onPool_alongside (Block.compileBody_alongside h.dict.undefined [] [] "main" [] script.body)
  refine (hcompile _ _ h).bind (fun main ↦ (Function.callWithin_moves steps main _ _).runGrows) ?_
  intro ρ' main main' fresh st' _ hcompiled hmain hst
  obtain ⟨pool, hcompiles, rfl⟩ := Run.onPool_eq_ok hcompiled
  have haccepted := hshort.accepted hcompiles
  obtain ⟨code, hcode, harity⟩ := haccepted.main_code
  have hreceiver : Value.undefined.Renamed ρ' .undefined := .basic trivial
  have hframed (n : Machine)
      (hentered : Exec.enter .undefined [] (haccepted.program.machine config code) = .ok () n) :
      ∃ objects callers operands, n.Framed haccepted.program objects callers operands :=
    ⟨_, _, _, (haccepted.framed ((haccepted.entered?_eq_some hcode).mpr hentered)).1⟩
  exact Function.callWithin_alongside hst hmain hcode hreceiver .nil harity
    config.nestingLimit_pos hframed steps

end Scripts

end TandemScript
