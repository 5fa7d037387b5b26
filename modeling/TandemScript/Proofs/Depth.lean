import TandemScript.Proofs.MachineLockstep

/-!
# The depth of calls

A call is counted when it is entered, and it is left however it ends. So the depth of calls is the
same after a call as before it. In between it never exceeds the limit, unless it did so before the
call: an engine that is watched, and that would stop with an alarm where calls nest too deeply, does
exactly what the engine does that is not watched.
-/

namespace TandemScript

/-! ## Watched engines -/

/-- A computation that is watched when it starts and when it ends: an alarm takes the place of what
it comes to where calls nest deeper than a bound. -/
def Run.watched {α : Type} (bound : Nat) (alarm : Stop) (x : Run α) : Run α := fun st ↦
  if bound < st.depth then .error alarm st
  else
    let result := x st
    if bound < (finalState result).depth then .error alarm (finalState result) else result

/-- Call a function, and watch it and all calls below it. Only entering a call makes calls nest
deeper, and so there is a watch right behind it, too. -/
def Function.callWatched (bound : Nat) (alarm : Stop) : (steps : Nat) → Caller
  | 0 => fun _ _ _ ↦ Run.watched bound alarm fun st ↦ .error .unfinished st
  | steps + 1 => fun f receiver args ↦
    let call := Function.callWatched bound alarm steps
    Run.watched bound alarm <| match f.body with
      | .native op => op.call receiver args
      | .closure params body env =>
        Run.insideCall (Run.watched bound alarm (f.evaluate call params body env receiver args))
      | .bytecode _ =>
        Run.insideCall (Run.watched bound alarm (f.execute call steps receiver args))

/-- Run a program on an engine, and watch it and all its calls. -/
def Script.runWatched (engine : Engine) (bound : Nat) (alarm : Stop) (steps : Nat)
    (script : Script) : Run Value :=
  let call := Function.callWatched bound alarm steps
  Run.watched bound alarm <| match engine with
    | .machine => do
      let main ← Run.onPool script.compile
      call main .undefined []
    | .tree => do
      let frame ← Run.activate (.activation .undefined [] [] script.body.declared)
      Run.insideCall (Run.watched bound alarm (script.body.evaluate call "main" [frame]))

/-! ## At a depth -/

/-- The limits are given, and so many calls are active. -/
def RunState.IsAt (config : Config) (depth : Nat) (st : RunState) : Prop :=
  st.config = config ∧ st.depth = depth

theorem RunState.IsAt.later {config : Config} {depth : Nat} (st st' : RunState)
    (h : st.IsAt config depth) (hlater : st.Later st') : st'.IsAt config depth :=
  ⟨hlater.config.trans h.1, hlater.depth.trans h.2⟩

theorem treeLaws_isAt (config : Config) (depth : Nat) :
    TreeLaws (fun _ ↦ False) (Along (RunState.IsAt config depth)) :=
  treeLaws_along (fun _ _ h ↦ h) RunState.IsAt.later

section Watching

variable {α : Type} {x y : Run α} {config : Config} {depth bound : Nat} {alarm : Stop}

/-- What two computations do that go through the same states. -/
abbrev Run.Agree (config : Config) (depth : Nat) (x y : Run α) : Prop :=
  Lockstep (fun _ ↦ False) (Along (RunState.IsAt config depth)) x y

abbrev Caller.Agree (config : Config) (depth : Nat) (call call' : Caller) : Prop :=
  Caller.Lockstep (fun _ ↦ False) (Along (RunState.IsAt config depth)) call call'

/-- Where the depth is within the bound there is no alarm. -/
theorem Run.watched_of_le {st : RunState} (hst : st.depth ≤ bound)
    (hend : (finalState (x st)).depth ≤ bound) : Run.watched bound alarm x st = x st := by
  unfold Run.watched
  rw [if_neg (Nat.not_lt_of_le hst)]
  exact if_neg (Nat.not_lt_of_le hend)

theorem Run.Agree.watched (h : Run.Agree config depth x y) (hbound : depth ≤ bound) :
    Run.Agree config depth x (Run.watched bound alarm y) := by
  apply lockstep_along_iff.mpr
  intro st hst
  obtain ⟨hsame, hend⟩ := lockstep_along_iff.mp h st hst
  have hstart : st.depth ≤ bound := hst.2 ▸ hbound
  rw [Run.watched_of_le hstart (by rw [hsame, hend.2]; exact hbound)]
  exact ⟨hsame, hend⟩

/-- Inside a call the depth is one more, and this is within the limit. -/
theorem Run.Agree.insideCall
    (h : depth < config.nestingLimit → Run.Agree config (depth + 1) x y) :
    Run.Agree config depth (Run.insideCall x) (Run.insideCall y) := by
  apply lockstep_along_iff.mpr
  rintro st ⟨rfl, rfl⟩
  by_cases hdepth : st.depth < st.config.nestingLimit
  · obtain ⟨hsame, hend⟩ :=
      lockstep_along_iff.mp (h hdepth) { st with depth := st.depth + 1 } ⟨rfl, rfl⟩
    rw [Run.insideCall_of_lt x hdepth, Run.insideCall_of_lt y hdepth, hsame]
    refine ⟨rfl, ?_⟩
    cases hx : x { st with depth := st.depth + 1 } with
    | ok a t =>
      rw [hx] at hend
      exact ⟨hend.1, congrArg (· - 1) hend.2⟩
    | error stop t =>
      rw [hx] at hend
      exact ⟨hend.1, congrArg (· - 1) hend.2⟩
  · have hle := Nat.le_of_not_lt hdepth
    rw [Run.insideCall_of_le x hle, Run.insideCall_of_le y hle]
    exact ⟨rfl, rfl, rfl⟩

/-- A call that is watched inside gives no alarm, either. -/
theorem Run.Agree.watchedCall (hlimit : config.nestingLimit ≤ bound)
    (h : depth + 1 ≤ bound → Run.Agree config (depth + 1) x y) :
    Run.Agree config depth (Run.insideCall x)
      (Run.insideCall (Run.watched bound alarm y)) := by
  apply Run.Agree.insideCall
  intro hroom
  have hinside : depth + 1 ≤ bound := Nat.le_trans hroom hlimit
  exact (h hinside).watched hinside

/-- What agrees at the depth of a state comes to the same from there. -/
theorem Run.Agree.eq {st : RunState} (h : Run.Agree st.config st.depth x y) : y st = x st :=
  (lockstep_along_iff.mp h st ⟨rfl, rfl⟩).1

/-- What moves the state on agrees with itself. -/
theorem Moves.agree (h : Moves RunState.Later x) : Run.Agree config depth x x :=
  h.lockstep RunState.IsAt.later

end Watching

/-! ## Calls and runs -/

variable {config : Config} {bound : Nat}

/-- From a depth within the bound no call gives an alarm. -/
theorem Function.callWatched_agree (hlimit : config.nestingLimit ≤ bound) (alarm : Stop)
    (steps : Nat) {depth : Nat} (hdepth : depth ≤ bound) :
    Caller.Agree config depth (Function.callWithin steps)
      (Function.callWatched bound alarm steps) := by
  induction steps generalizing depth with
  | zero =>
    intro f receiver args
    have hself : Run.Agree config depth (fun st ↦ .error .unfinished st : Run Value)
        (fun st ↦ .error .unfinished st) :=
      fun _ _ hst ↦ .of_error hst
    exact hself.watched hdepth
  | succ steps ih =>
    intro f receiver args
    unfold Function.callWithin Function.callWatched
    apply Run.Agree.watched _ hdepth
    cases f.body with
    | native op => exact (op.call_moves receiver args).agree
    | closure params body env =>
      apply Run.Agree.watchedCall hlimit
      intro hinside
      exact (treeLaws_isAt config (depth + 1)).evaluateFunction (ih hinside) f params body env
        receiver args
    | bytecode code =>
      apply Run.Agree.watchedCall hlimit
      intro hinside
      exact f.execute_lockstep (fun _ _ h ↦ h) RunState.IsAt.later (ih hinside) (Nat.le_refl steps)
        (fun h ↦ absurd h (Nat.lt_irrefl steps)) receiver args

theorem Script.runWatched_agree (hlimit : config.nestingLimit ≤ bound) (alarm : Stop)
    (engine : Engine) (steps : Nat) (script : Script) {depth : Nat} (hdepth : depth ≤ bound) :
    Run.Agree config depth (script.runOn engine steps)
      (script.runWatched engine bound alarm steps) := by
  have hcalls : ∀ {depth}, depth ≤ bound → Caller.Agree config depth (Function.callWithin steps)
      (Function.callWatched bound alarm steps) :=
    Function.callWatched_agree hlimit alarm steps
  unfold Script.runWatched
  apply Run.Agree.watched _ hdepth
  cases engine with
  | machine =>
    apply Lockstep.bind
    · exact (Run.onPool_moves (Block.compileBody_grows _ _ _ script.body)).agree
    · intro main
      exact hcalls hdepth main .undefined []
  | tree =>
    apply Lockstep.bind ((treeLaws_isAt config depth).activate _)
    intro frame
    apply Run.Agree.watchedCall hlimit
    intro hinside
    exact (treeLaws_isAt config (depth + 1)).evaluateBody (hcalls hinside) "main" script.body
      [frame]

/-- Every call is left again, however it ends: the depth of calls is afterwards what it was before,
for a call of any function and for a run of any program on each of the engines. In between it is
never greater than the limit, or than it was before: there is no alarm at that bound. -/
theorem calls_released (steps : Nat) (st : RunState) :
    (∀ f receiver args,
      (finalState (Function.callWithin steps f receiver args st)).depth = st.depth ∧
      ∀ alarm, Function.callWatched (max st.depth st.config.nestingLimit) alarm steps f receiver
        args st = Function.callWithin steps f receiver args st) ∧
    ∀ (script : Script) engine,
      (finalState (script.runOn engine steps st)).depth = st.depth ∧
      ∀ alarm, script.runWatched engine (max st.depth st.config.nestingLimit) alarm steps st =
        script.runOn engine steps st := by
  have hdepth := Nat.le_max_left st.depth st.config.nestingLimit
  have hlimit := Nat.le_max_right st.depth st.config.nestingLimit
  constructor
  · intro f receiver args
    refine ⟨(Function.callWithin_moves steps f receiver args st).depth, fun alarm ↦ ?_⟩
    exact Run.Agree.eq (Function.callWatched_agree hlimit alarm steps hdepth f receiver args)
  · intro script engine
    refine ⟨(script.runOn_moves engine steps st).depth, fun alarm ↦ ?_⟩
    exact Run.Agree.eq (script.runWatched_agree hlimit alarm engine steps hdepth)

/-- A bound that leaves no room for the run itself gives the alarm. -/
example : ∃ st, (Script.ofList []).runWatched .tree 0 .unfinished 1 (.new {}) =
    .error .unfinished st :=
  ⟨_, rfl⟩

end TandemScript
