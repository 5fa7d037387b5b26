import TandemScript.Proofs.Capacity
import TandemScript.Proofs.Seated

/-!
# Conditions

A condition is false if its value is the integer zero. A machine does not ask for the value: it
compares the word with that of zero. In a run of compiled functions this comes to the same, whatever
integers the dictionary holds and wherever the word comes from. So an engine that watches all its
machines, and that would stop with an alarm where the word and the value of a condition differ, does
exactly what the engine does that is not watched.
-/

namespace TandemScript

/-! ## Watched conditions -/

/-- The word that a machine is about to test, if it is at a condition. -/
def Machine.tested? (m : Machine) : Option Word :=
  match m.code.fetch? m.pc with
  | some (.instruction (.jumpIfFalse _)) => m.stack.back?
  | _ => none

/-- The machine is about to test a word that is zero where its value is not false, or that is not
zero where its value is false. -/
def Machine.misjudges (m : Machine) : Bool :=
  match m.tested? with
  | some word => decide (word = Word.zero) != word.isFalseIn m.run.dict m.heap m.run.records
  | none => false

namespace Exec

/-- Take a step, unless a condition is misjudged by it: then an alarm takes its place. -/
def judgedStep (alarm : Stop) (call : Caller) : Exec (Option Word) := fun m ↦
  if m.misjudges then .error alarm m else step call m

/-- Take watched steps until there is a result, but no more than allowed. -/
def judgedRun (alarm : Stop) (call : Caller) : (steps : Nat) → Exec Word
  | 0 => fun m ↦ .error .unfinished m
  | steps + 1 => do
    match ← judgedStep alarm call with
    | some result => return result
    | none => judgedRun alarm call steps

def judgedSession (alarm : Stop) (call : Caller) (steps : Nat) (receiver : Value)
    (args : List Value) : Exec Value := do
  enter receiver args
  decode (← judgedRun alarm call steps)

end Exec

def Function.runJudged (alarm : Stop) (call : Caller) (steps : Nat) (f : Function) (code : Code)
    (receiver : Value) (args : List Value) : Run Value := fun st ↦
  match Exec.judgedSession alarm call steps receiver args (.new st f code) with
  | .ok value m => .ok value m.run
  | .error stop m => .error stop m.run

/-- Run a compiled function, and watch all conditions of its machine. -/
def Function.executeJudged (alarm : Stop) (call : Caller) (steps : Nat) (f : Function)
    (receiver : Value) (args : List Value) : Run Value :=
  match f.code? with
  | none => Run.fail (.inconsistent (.noBytecode f.name))
  | some code =>
    if code.arity ≠ args.length + 1 then
      Run.fail ⟨.arityMismatch f.name (code.arity - 1) args.length, {}⟩
    else f.runJudged alarm call steps code receiver args

/-- Call a function, and watch all conditions of all machines below it. -/
def Function.callJudged (alarm : Stop) : (steps : Nat) → Caller
  | 0 => fun _ _ _ st ↦ .error .unfinished st
  | steps + 1 => fun f receiver args ↦
    let call := Function.callJudged alarm steps
    match f.body with
    | .native op => op.call receiver args
    | .closure params body env => Run.insideCall (f.evaluate call params body env receiver args)
    | .bytecode _ => Run.insideCall (f.executeJudged alarm call steps receiver args)

/-! ## No alarm -/

section Judging

variable {lib : Library} {m : Machine} {call call' : Caller} {callers : List Waiting}

theorem Machine.mem_of_tested? {word : Word} (h : m.tested? = some word) : word ∈ m.stack := by
  unfold tested? at h
  split at h
  · exact Array.mem_of_back? h
  · cases h

theorem Machine.Clean.not_misjudges (h : m.Clean lib) : m.misjudges = false := by
  unfold misjudges
  split
  · next word htested =>
    have hword := h.stack word (mem_of_tested? htested)
    simp [hword.eq_zero_iff m.heap m.run.records]
  · rfl

namespace Machine.Seated

variable (hcall : call.Trusting lib call') (hmoves : call.Moves) (alarm : Stop)
include hcall hmoves

theorem judgedStep (h : m.Seated lib callers) (hroom : m.stack.size ≤ m.stackLimit) :
    Coincide (Exec.step call) (Exec.judgedStep alarm call') m fun result m' ↦
      m'.Settles lib result ∧ m'.stack.size ≤ m'.stackLimit := by
  obtain ⟨hsame, hsettles⟩ := h.step hcall hmoves hroom
  refine ⟨?_, hsettles⟩
  unfold Exec.judgedStep
  rw [h.toClean.not_misjudges]
  exact hsame

theorem judgedRun (h : m.Seated lib callers) (hroom : m.stack.size ≤ m.stackLimit) (steps : Nat) :
    Coincide (Exec.run call steps) (Exec.judgedRun alarm call' steps) m
      fun _ m' ↦ m'.Clean lib := by
  induction steps generalizing m callers with
  | zero => exact ⟨rfl, .of_error rfl trivial⟩
  | succ steps ih =>
    refine (h.judgedStep hcall hmoves alarm hroom).bind ?_
    rintro result m' ⟨hsettles, hroom'⟩
    cases result with
    | some word => exact .of_ensures (.pure hsettles)
    | none =>
      obtain ⟨callers', h'⟩ := hsettles
      exact ih h' hroom'

end Machine.Seated

theorem Exec.judgedSession_trusting (hcall : call.Trusting lib call') (hmoves : call.Moves)
    (alarm : Stop) (steps : Nat) {st : RunState} (hst : st.Trusted lib) {f : Function}
    (hf : lib.function? f.id = some f) {code : Code} (hcode : f.code? = some code)
    {receiver : Value} {args : List Value} (harity : code.arity = args.length + 1)
    (hreceiver : receiver.IsTrusted lib) (hargs : ∀ arg ∈ args, Value.IsTrusted lib arg) :
    Coincide (session call steps receiver args) (judgedSession alarm call' steps receiver args)
      (.new st f code) fun value m ↦ value.IsTrusted lib ∧ m.run.Trusted lib := by
  have henter : Ensures (enter receiver args) (.new st f code)
      (fun _ m ↦ m.Seated lib [] ∧ m.stack.size ≤ m.stackLimit) fun _ _ ↦ True := by
    have hseated := enter_seated hst hf hcode harity hreceiver hargs
    unfold Ensures at hseated ⊢
    cases hresult : enter receiver args (.new st f code) with
    | ok _ m =>
      rw [hresult] at hseated
      exact ⟨hseated, ((enter_moves receiver args).ok hresult).stack (Nat.zero_le _)⟩
    | error stop m => trivial
  refine (Coincide.of_ensures henter).bind ?_
  rintro _ m ⟨hseated, hroom⟩
  refine (hseated.judgedRun hcall hmoves alarm hroom steps).bind fun word m' hclean ↦ ?_
  refine .of_ensures ((decode_works hclean.refl word).mono ?_ fun _ _ _ ↦ trivial)
  rintro value m'' ⟨hvalue, hworks⟩
  exact ⟨hvalue, hworks.run⟩

theorem Function.executeJudged_trusting (hcall : call.Trusting lib call') (hmoves : call.Moves)
    (alarm : Stop) (steps : Nat) {f : Function} (hf : lib.function? f.id = some f)
    {receiver : Value} {args : List Value} (hreceiver : receiver.IsTrusted lib)
    (hargs : ∀ arg ∈ args, Value.IsTrusted lib arg) :
    Run.Trusting lib (Value.IsTrusted lib) (f.execute call steps receiver args)
      (f.executeJudged alarm call' steps receiver args) := by
  unfold execute executeJudged
  cases hcode : f.code? with
  | none => exact .fails
  | some code =>
    by_cases harity : code.arity = args.length + 1
    · simp only [if_neg (not_not_intro harity)]
      intro st hst
      obtain ⟨hsame, hspec⟩ := Exec.judgedSession_trusting hcall hmoves alarm steps hst hf hcode
        harity hreceiver hargs
      unfold Coincide Ensures runMachine runJudged at *
      rw [hsame]
      refine ⟨rfl, ?_⟩
      cases hresult : Exec.session call steps receiver args (.new st f code) with
      | ok value m =>
        rw [hresult] at hspec
        exact hspec
      | error stop m => trivial
    · simp only [if_pos harity]
      exact .fails

/-- For trusted values a call with all conditions watched is the call without any watch. -/
theorem Function.callJudged_trusting (lib : Library) (alarm : Stop) (steps : Nat) :
    (Function.callWithin steps).Trusting lib (Function.callJudged alarm steps) := by
  induction steps with
  | zero => exact fun _ _ _ _ _ _ ↦ .self fun _ _ ↦ .of_error rfl trivial
  | succ steps ih =>
    intro f receiver args hf hreceiver hargs
    unfold callWithin callJudged
    cases hbody : f.body with
    | native op => exact .native op hreceiver hargs
    | closure params body env =>
      exact .insideCall (f.evaluate_trusting ih params body env hreceiver hargs)
    | bytecode code =>
      have hcode : f.code? = some code := by simp [Function.code?, hbody]
      exact .insideCall (f.executeJudged_trusting ih (Function.callWithin_moves steps) alarm steps
        (hf.library hcode) hreceiver hargs)

end Judging

/-! ## Reached states -/

section Reached

variable {lib : Library} {m m' : Machine} {call call' : Caller} {callers : List Waiting}

theorem Machine.Seated.after (hcall : call.Trusting lib call') (hmoves : call.Moves)
    (h : m.Seated lib callers) (hroom : m.stack.size ≤ m.stackLimit) {count : Nat}
    (hafter : m.after call count = some m') :
    (∃ callers', m'.Seated lib callers') ∧ m'.stack.size ≤ m'.stackLimit := by
  induction count generalizing m' with
  | zero =>
    obtain rfl := Option.some.inj hafter
    exact ⟨⟨callers, h⟩, hroom⟩
  | succ count ih =>
    obtain ⟨m₁, hafter, hnext⟩ := Option.bind_eq_some_iff.mp hafter
    obtain ⟨⟨callers₁, h₁⟩, hroom₁⟩ := ih hafter
    have hsettles := (h₁.step hcall hmoves hroom₁).2
    unfold Ensures at hsettles
    rw [show Exec.step call m₁ = .ok none m' from goes_of_next? hnext] at hsettles
    exact hsettles

/-- In every state of its execution with trusted values a function of the library, or one that it
calls, stands at an instruction of its code. -/
theorem Function.Visits.seated {f : Function} {receiver : Value} {args : List Value}
    {st : RunState} (h : f.Visits call receiver args st m) (hcall : call.Trusting lib call')
    (hmoves : call.Moves) (hst : st.Trusted lib) (hf : lib.function? f.id = some f)
    (hreceiver : receiver.IsTrusted lib) (hargs : ∀ arg ∈ args, Value.IsTrusted lib arg) :
    ∃ callers, m.Seated lib callers := by
  obtain ⟨code, m₀, count, hcode, harity, henter, hafter⟩ := h
  have hseated := Exec.enter_seated hst hf hcode harity hreceiver hargs
  unfold Ensures at hseated
  rw [henter] at hseated
  have hroom := ((Exec.enter_moves receiver args).ok henter).stack (Nat.zero_le _)
  exact (hseated.after hcall hmoves hroom hafter).1

end Reached

/-- Where a compiled function runs, every condition has a word on top of the stack, which is the
word of zero exactly if its value is false; it never names an entry of zero in the dictionary. This
holds in all machines below the run, too: none of them gives an alarm. -/
theorem conditions_judged {lib : Library} {st : RunState} (hst : st.Trusted lib) {f : Function}
    (hf : lib.function? f.id = some f) {receiver : Value} (hreceiver : receiver.IsTrusted lib)
    {args : List Value} (hargs : ∀ arg ∈ args, Value.IsTrusted lib arg) (steps : Nat) :
    (∀ m target, f.Visits (Function.callWithin steps) receiver args st m →
      m.code.fetch? m.pc = some (.instruction (.jumpIfFalse target)) →
      ∃ word, m.stack.back? = some word ∧
        (word = Word.zero ↔ ∃ value copied,
          decode m.run.dict m.heap word m.run.records = .ok value copied ∧ value.isFalse = true) ∧
        ∀ index, word.view = .entry index → m.run.dict.get? index ≠ some (.int 0)) ∧
    ∀ alarm, Function.callJudged alarm steps f receiver args st =
      Function.callWithin steps f receiver args st := by
  have hcall (alarm : Stop) := Function.callJudged_trusting lib alarm steps
  constructor
  · intro m target hvisits hfetch
    obtain ⟨callers, hseated⟩ := hvisits.seated (hcall .unfinished)
      (Function.callWithin_moves steps) hst hf hreceiver hargs
    obtain ⟨height, hmeasured, ⟨i, hholds⟩, hsize⟩ := hseated.stands
    obtain rfl : i = .jumpIfFalse target := by simpa [hholds.fetch?] using hfetch
    have htakes : 1 ≤ height m.pc := hmeasured.heights.takes _ _ hholds
    obtain ⟨below, word, hstack⟩ := Array.exists_push_of_size_pos (show 0 < m.stack.size by omega)
    have hword : word.Canonical m.run.dict := hseated.stack word (hstack ▸ Array.mem_push_self)
    refine ⟨word, by rw [hstack, Array.back?_push], ?_, fun index ↦ hword.not_entry_of_zero⟩
    rw [← Word.isFalseIn_iff]
    exact hword.eq_zero_iff m.heap m.run.records
  · exact fun alarm ↦ (hcall alarm f receiver args (.of_library hf) hreceiver hargs st hst).1

/-! ## A dictionary with zero -/

/-- A function that asks a function of the host, and then its parameter. -/
def twoConditions : Block :=
  .ofList [
    .branch (.applyGlobal "asked" []) [.returning (.int 1)]
      [.branch (.read "n") [.returning (.int 2)] [.returning (.int 3)]]]

def askedFunction : Function :=
  ⟨12, "asked", .native (.host 0)⟩

/-- A run whose dictionary holds zero, with a function of the host that answers with zero. -/
def zeroAnswered : RunState :=
  { RunState.new {} with
    dict := ⟨#[.undefined, .int 0]⟩
    nextId := 13
    globals := ⟨[("asked", .function askedFunction)]⟩
    hosts := #[fun records _ _ ↦ ⟨.ok (.int 0), records, ""⟩] }

/-- The check that a function is compiled with short code, and that it is the last to get a number,
in a dictionary without functions. -/
def compiledAlone : EStateM.Result Failure Pool Function → Bool
  | .ok f pool =>
    (Value.function f).isShort && decide (f.id < pool.nextId ∧ f.id ≠ askedFunction.id) &&
      pool.dict.entries.all fun
        | .function _ => false
        | _ => true
  | .error _ _ => false

/-- The run after the function was compiled in it trusts all its values. -/
theorem zeroAnswered_trusted {f : Function} {pool : Pool}
    (hcompile : twoConditions.compileAs (some "choose") ["n"] [] zeroAnswered.toPool = .ok f pool)
    (hcheck : compiledAlone (.ok f pool) = true) :
    ∃ lib : Library, lib.function? f.id = some f ∧
      RunState.Trusted lib { zeroAnswered with toPool := pool } ∧
      pool.dict.get? 1 = some (.int 0) := by
  obtain ⟨⟨hshort, hlt, hne⟩, hplain⟩ : ((Value.function f).isShort = true ∧
      f.id < pool.nextId ∧ f.id ≠ askedFunction.id) ∧ _ := by
    simpa only [compiledAlone, Bool.and_eq_true, decide_eq_true_eq] using hcheck
  have hnumbered : zeroAnswered.toPool.Numbered := by
    refine ⟨rfl, by decide, fun index value hvalue ↦ ?_⟩
    have hmem : value ∈ #[Value.undefined, .int 0] := Array.mem_of_getElem? hvalue
    rcases (by simpa using hmem : value = .undefined ∨ value = .int 0) with rfl | rfl <;> trivial
  have hspec := Block.compileBody_spec [] "choose" ["n"] twoConditions hnumbered
  unfold Ensures at hspec
  rw [show twoConditions.compileBody [] "choose" ["n"] zeroAnswered.toPool = .ok f pool
    from hcompile] at hspec
  have hcompiled : f.IsCompiledFor pool.dict :=
    ⟨_, _, _, _, _, _, hnumbered, hcompile, .refl _⟩
  let lib := Library.of pool.dict [f] hspec.1.numbered.undefined (by simpa using hcompiled)
    (by simpa using Function.isShort_of_check hshort)
  have hasked : (Value.function askedFunction).IsTrusted lib := by
    rintro _ ⟨⟩
    exact .inr ⟨rfl, by simp [lib, Library.of, hne]⟩
  have hglobals : zeroAnswered.globals.All (Value.IsTrusted lib) :=
    Bindings.All.empty.set "asked" hasked
  have hzero : pool.dict.get? 1 = some (.int 0) := hspec.1.grows.get? rfl
  refine ⟨lib, by simp [lib, Library.of],
    { globals := hglobals, frames := ?_, records := ?_, grows := .refl _, entries := ?_,
      fresh := ?_, hosts := ?_ }, hzero⟩
  · exact fun bindings hbindings ↦ absurd hbindings (Array.not_mem_empty _)
  · exact fun record hrecord ↦ absurd hrecord (Array.not_mem_empty _)
  · intro index value hvalue
    have hentry := Array.all_eq_true'.mp hplain value (Array.mem_of_getElem? hvalue)
    exact .of_not_function fun g hg ↦ by simp [hg] at hentry
  · intro id hid
    have hother : f.id ≠ id := Nat.ne_of_lt (Nat.lt_of_lt_of_le hlt hid)
    simp [lib, Library.of, hother]
  · intro respond hrespond records receiver args hrecords _ _
    obtain rfl := List.mem_singleton.mp (Array.mem_def.mp hrespond)
    refine ⟨hrecords, fun value hvalue ↦ ?_⟩
    obtain rfl := Except.ok.inj hvalue
    exact .int 0

/-- What is tested after so many steps of the function that was compiled. -/
def testedAfter (count : Nat) : EStateM.Result Failure Pool Function → Option (Option Word)
  | .ok f pool =>
    let st := { zeroAnswered with toPool := pool }
    (f.visited? (Function.callWithin 20) .undefined [.int 0] st count).map Machine.tested?
  | .error _ _ => none

theorem Machine.exists_of_tested? {m : Machine} {word : Word} (h : m.tested? = some word) :
    ∃ target, m.code.fetch? m.pc = some (.instruction (.jumpIfFalse target)) ∧
      m.stack.back? = some word := by
  unfold tested? at h
  split at h
  · next target hfetch => exact ⟨target, hfetch, h⟩
  · cases h

/-- The compiled function runs in a trusted state, and tests the word of zero. -/
theorem twoConditions_visits :
    ∃ (lib : Library) (f : Function) (pool : Pool) (m : Machine),
      let st : RunState := { zeroAnswered with toPool := pool }
      twoConditions.compileAs (some "choose") ["n"] [] zeroAnswered.toPool = .ok f pool ∧
      pool.dict.get? 1 = some (.int 0) ∧ st.Trusted lib ∧ lib.function? f.id = some f ∧
      f.Visits (Function.callWithin 20) .undefined [.int 0] st m ∧
      m.tested? = some Word.zero := by
  have hcheck : compiledAlone
      (twoConditions.compileAs (some "choose") ["n"] [] zeroAnswered.toPool) = true := by
    decide +kernel
  have htested : testedAfter 3
      (twoConditions.compileAs (some "choose") ["n"] [] zeroAnswered.toPool) =
        some (some Word.zero) := by
    decide +kernel
  cases hcompile : twoConditions.compileAs (some "choose") ["n"] [] zeroAnswered.toPool with
  | error failure pool =>
    rw [hcompile] at hcheck
    cases hcheck
  | ok f pool =>
    rw [hcompile] at hcheck htested
    obtain ⟨m, hvisited, hword⟩ := Option.map_eq_some_iff.mp htested
    obtain ⟨lib, hlib, htrusted, hzero⟩ := zeroAnswered_trusted hcompile hcheck
    exact ⟨lib, f, pool, m, rfl, hzero, htrusted, hlib, Function.visits_of_visited? hvisited,
      hword⟩

/-- What the host answered is zero, and so is the word that is tested, although there is an entry
for zero. -/
theorem twoConditions_judged :
    ∃ (lib : Library) (f : Function) (pool : Pool) (m : Machine) (target : UInt32),
      let st : RunState := { zeroAnswered with toPool := pool }
      twoConditions.compileAs (some "choose") ["n"] [] zeroAnswered.toPool = .ok f pool ∧
      pool.dict.get? 1 = some (.int 0) ∧ st.Trusted lib ∧ lib.function? f.id = some f ∧
      f.Visits (Function.callWithin 20) .undefined [.int 0] st m ∧
      m.code.fetch? m.pc = some (.instruction (.jumpIfFalse target)) ∧
      m.stack.back? = some Word.zero ∧
      (∃ value copied, decode m.run.dict m.heap Word.zero m.run.records = .ok value copied ∧
        value.isFalse = true) ∧
      ∀ alarm, Function.callJudged alarm 20 f .undefined [.int 0] st =
        Function.callWithin 20 f .undefined [.int 0] st := by
  obtain ⟨lib, f, pool, m, hcompile, hzero, htrusted, hlib, hvisits, hword⟩ := twoConditions_visits
  obtain ⟨target, hfetch, hback⟩ := Machine.exists_of_tested? hword
  obtain ⟨hjudged, hwatched⟩ := conditions_judged htrusted hlib .undefined
    (List.forall_mem_singleton.mpr (.int 0)) 20
  obtain ⟨word, hback', hiff, -⟩ := hjudged m target hvisits hfetch
  obtain rfl : word = Word.zero := Option.some.inj (hback'.symm.trans hback)
  exact ⟨lib, f, pool, m, target, hcompile, hzero, htrusted, hlib, hvisits, hfetch, hback,
    hiff.mp rfl, hwatched⟩

end TandemScript
