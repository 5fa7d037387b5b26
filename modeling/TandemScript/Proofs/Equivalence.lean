import TandemScript.Proofs.Calls
import TandemScript.Proofs.Ending

/-!
# The two engines agree

An accepted script in which no function reads a variable of a function around it comes to the same
on both engines, as long as nothing runs out and no two functions of the program are compared. Both
runs print the same text. They give values that look alike, among records that correspond to each
other one by one, or they fail with the same cause and at the same place.
-/

namespace TandemScript

variable {p : Program} {w : World} {script : Script} {config : Config} {level : Option Level}
  {main : Function} {pool : Pool} {call : TracedCaller}

/-! ## Values of two runs -/

/-- Values that look alike from outside: functions by their names, records by a relation between
those of the one run and those of the other one. -/
inductive Value.Alike (R : RecordId → RecordId → Prop) : Value → Value → Prop
  | basic {value : Value} : value.IsBasic → Alike R value value
  | function {f g : Function} : f.name = g.name → Alike R (.function f) (.function g)
  | record {id id' : RecordId} : R id id' → Alike R (.record id) (.record id')

/-- A one-to-one relation between records with the same fields, whose values look alike. -/
structure Records.Isomorphic (R : RecordId → RecordId → Prop) (records records' : Records) :
    Prop where
  injective : ∀ a b c, R a c → R b c → a = b
  functional : ∀ a b c, R a b → R a c → b = c
  fields : ∀ a b, R a b → ∃ record record', records.get? a = some record ∧
    records'.get? b = some record' ∧ record.shape = record'.shape ∧
      record.fields.size = record'.fields.size ∧
        ∀ (offset : Nat) value found, record.fields[offset]? = some value →
          record'.fields[offset]? = some found → value.Alike R found

/-- Two runs printed the same text, and their values look alike. -/
def Value.AgreesWith (value : Value) (st : RunState) (found : Value) (st' : RunState) : Prop :=
  st.output = st'.output ∧
    ∃ R, Records.Isomorphic R st.records st'.records ∧ value.Alike R found

/-- A record of the tree and a copy of the object that mirrors it. -/
def World.Copies (w : World) (copies : Nat → Option RecordId) (id copy : RecordId) : Prop :=
  ∃ o : Placed, w.objects[id]? = some o ∧ copies o.start = some copy

theorem Value.Copied.alike {copies : Nat → Option RecordId} {found value : Value}
    (h : found.Copied p w copies value) : value.Alike (w.Copies copies) found := by
  cases h with
  | basic hbasic => exact .basic hbasic
  | function hg => exact .function hg.name_eq.symm
  | record ho hcopy => exact .record ⟨_, ho, hcopy⟩

/-- The copies that a machine makes of its objects correspond to the records of the tree. -/
theorem Records.Mirrored.isomorphic {heap : Heap} {records records' : Records}
    {copies : Nat → Option RecordId} (hheap : heap.Sound w.dict w.objects)
    (hmirrored : records'.Mirrored p w heap)
    (hcopies : CopiesOf w.dict heap w.objects records copies) :
    Records.Isomorphic (w.Copies copies) records' records where
  injective := by
    rintro a b copy ⟨o, ho, hcopy⟩ ⟨o', ho', hcopy'⟩
    obtain ⟨record, hrecord, hstands, -⟩ := CopiesOf.record hheap hcopies ho hcopy
    obtain ⟨record', hrecord', hstands', -⟩ := CopiesOf.record hheap hcopies ho' hcopy'
    obtain rfl := Option.some.inj (hrecord.symm.trans hrecord')
    have horigin := hstands.origin.symm.trans hstands'.origin
    exact hheap.laid.index_unique ho ho' (Origin.mk.inj (Option.some.inj horigin)).2
  functional := by
    rintro a copy copy' ⟨o, ho, hcopy⟩ ⟨o', ho', hcopy'⟩
    obtain rfl := Option.some.inj (ho.symm.trans ho')
    exact Option.some.inj (hcopy.symm.trans hcopy')
  fields := by
    rintro a copy ⟨o, ho, hcopy⟩
    obtain ⟨record, record', hrecord, hrecord', hshape, hsize, hvalues⟩ :=
      Records.Mirrored.entries hheap hmirrored hcopies ho hcopy
    exact ⟨record', record, hrecord', hrecord, hshape.symm, hsize.symm,
      fun offset value found hvalue hfound ↦ (hvalues offset found value hfound hvalue).alike⟩

/-- What a machine decodes from a word agrees with the value that the word stands for. -/
theorem Word.Stands.agreesWith {word : Word} {value found : Value} {st run : RunState} {heap : Heap}
    {records : Records} (h : word.Stands p w value) (hheap : heap.Sound w.dict w.objects)
    (hrelates : w.Relates p st run heap)
    (hdecodes : word.Decodes run.dict heap w.objects records found) :
    value.AgreesWith st found { run with records } := by
  rw [hrelates.dict] at hdecodes
  obtain ⟨copies, hreads, hcopies⟩ := hdecodes
  exact ⟨hrelates.output.symm, w.Copies copies, hrelates.records.isomorphic hheap hcopies,
    (h.copied hreads).alike⟩

/-! ## The main function -/

/-- Both runs start with the same globals, and with nothing else. -/
theorem World.Relates.initial (p : Program) (config : Config) (level : Option Level) (code : Code)
    (dict : Dictionary) :
    World.Relates p ⟨dict, [], {}⟩ (.new config level)
      { (p.machine config code).run with dict } (p.machine config code).heap where
  dict := rfl
  frames := rfl
  records := ⟨rfl, by simp, by simp⟩
  globals name := by
    unfold RunState.global
    change Value.Mirrors p _ _ _ ((Bindings.initial.get? name).getD .undefined)
      ((Bindings.initial.get? name).getD .undefined)
    cases hvalue : Bindings.initial.get? name with
    | none => exact .basic trivial
    | some value =>
      rcases Bindings.get?_initial hvalue with ⟨op, rfl⟩ | rfl
      · exact .function (.builtin op)
      · exact .basic trivial
  output := rfl
  nextId := Nat.le_refl _

/-- At the return of the outermost window the machine is done, and decodes what it returns. -/
theorem Machine.Answers.concludes {m m' : Machine} {own : FrameId} {callee receiver : Word}
    {value : Value} {st : RunState} (h : m.Answers p own w m.stack value st m') (hbp : m.bp = 1)
    (hstack : m.stack =
      completed #[callee, receiver] 1 m.code.slots Word.zero Word.zero callee)
    (hsize : 2 ≤ 1 + m.code.slots) :
    m'.Concludes fun found m'' ↦ value.AgreesWith st found m''.run := by
  obtain ⟨w', stack, pc, word, line, rest, -, hsame, hmeets, hword, hret⟩ := h
  rw [hbp, hstack] at hsame
  obtain ⟨hs, hvalid⟩ := hmeets.sound.of_push hmeets.stack
  obtain ⟨found, records, hdecode, -, hdecodes⟩ := Exec.decode_spec (hs.withPc _) hvalid
  exact ⟨word, _, found, _, Exec.step_outermost (hmeets.bp.trans hbp)
    (congrArg Code.slots hmeets.code) hsize (hmeets.contains hret) hmeets.stack hsame, hdecode,
    hword.agreesWith hmeets.heap hmeets.relates hdecodes⟩

/-- The machine of an accepted script does what the run on the tree does, and decodes the result. -/
theorem Script.Accepted.simulates (h : script.Accepted config level main pool)
    (hfree : script.isCaptureFree = true) (hcall : call.Simulated h.program) {code : Code}
    (hcode : main.code? = some code) :
    Ensures (Exec.enter .undefined []) (h.program.machine config code)
      (fun _ m ↦ Simulates "main" 0 (script.evaluateTraced call) (.new config level)
        (fun value st ↦ Machine.Concludes fun found m' ↦ value.AgreesWith st found m'.run) m)
      fun stop m ↦ ∃ failure, stop = .failed failure ∧ m.RanOut failure := by
  refine (Exec.enter_spec (m := h.program.machine config code)
    (h.program.machine_sound config hcode)).mono ?_ ?_
  · rintro _ m ⟨callee, receiver, dict, hgrows, hcallee, hreceiver, hm, hs⟩
    obtain ⟨hname, instrs, line, fragment, hbody, hemitted⟩ := h.main_emitted hcode
    have hentered : m.Entered h.program ⟨dict, [], {}⟩ main code
        (window #[] callee receiver #[]) ((#[] : Array Word).size + 1) Word.zero Word.zero callee
        (.new config level) := by
      subst hm
      exact ⟨hs, rfl, rfl, rfl, rfl, rfl, .initial h.program config level code dict⟩
    have hundefined {word : Word} (hword : dict.value word = .ok .undefined) :
        word.Stands h.program ⟨dict, [], {}⟩ .undefined :=
      .basic trivial (.entry hword (by simp))
    have hfree' :
        Block.isCaptureFree [.ofFunction [] (.mk instrs line)] (.mk instrs line) = true := by
      rw [← hbody]
      exact hfree
    have hmatch : ({} : Frames).Match [] [] := trivial
    have hsize := h.program.main_slots hcode
    unfold Script.evaluateTraced
    rw [hbody]
    refine .bind_ok rfl (.insideCall (P := fun value st ↦ Machine.Concludes fun found m' ↦
      value.AgreesWith st found m'.run) (fun depth ↦ ?_) fun _ _ _ _ h ↦ h)
    have hready := hentered.ready hemitted (hundefined hreceiver) .nil
      (hundefined (hgrows.value h.program.undefined)) rfl hmatch { level } depth
    obtain ⟨rfl, rfl⟩ : m.function = main ∧ m.code = code := ⟨hentered.function, hentered.code⟩
    have hanswers := hemitted.answers hcall hfree' hready
    rw [hname] at hanswers
    exact .inFunction (hanswers.mono fun _ _ _ h ↦
      h.concludes hentered.bp hentered.stack hsize)
  · rintro _ m ⟨failure, rfl, -, -, hran⟩
    exact ⟨failure, rfl, hran⟩

/-! ## Traced runs -/

/-- The traced run of a script on the tree. Calls nest no deeper than the limit, so that its budget
is not used up. -/
def Script.traced (script : Script) (config : Config) (level : Option Level) :
    EStateM.Result Halt RunState Value :=
  script.evaluateTraced (Function.callTraced (config.nestingLimit + 1)) (.new config level)

/-- The run on the tree compares no two functions of the program. -/
def Script.ComparesNoFunctions (script : Script) (config : Config) (level : Option Level) : Prop :=
  ∀ st, script.traced config level ≠ .error .compared st

/-- The check that a traced run was not cut off where functions are compared. -/
def comparesNone : EStateM.Result Halt RunState Value → Bool
  | .error .compared _ => false
  | _ => true

theorem Script.comparesNoFunctions_of_check (h : comparesNone (script.traced config level) = true) :
    script.ComparesNoFunctions config level := by
  intro st htraced
  rw [htraced] at h
  cases h

theorem Script.tree_ends (script : Script) (config : Config) (level : Option Level) {steps : Nat}
    (hsteps : config.nestingLimit < steps) (st : RunState) :
    script.runOn .tree steps (.new config level) ≠ .error .unfinished st := by
  intro hrun
  have hstays := script.evaluate_stays hsteps _ (RunState.new_ofTree config level)
  have hevaluate : script.evaluate _ _ = .error .unfinished st := hrun
  unfold Ensures at hstays
  rw [hevaluate] at hstays
  exact hstays rfl

/-- What the run on the tree comes to, as the traced run says. -/
theorem Script.ComparesNoFunctions.runOn_tree (h : script.ComparesNoFunctions config level)
    {steps : Nat} (hsteps : config.nestingLimit < steps) :
    match script.traced config level with
    | .ok value st => script.runOn .tree steps (.new config level) = .ok value st
    | .error (.failed failure _) st =>
      script.runOn .tree steps (.new config level) = .error (.failed failure) st
    | _ => False := by
  have herases := Script.evaluateTraced_erases
    (Function.callTraced_erases (config.nestingLimit + 1)) script (.new config level)
  have hends := script.tree_ends config level (Nat.lt_succ_self config.nestingLimit)
  rw [Script.runOn_eq_of_le .tree hsteps script hends]
  cases htraced : script.traced config level with
  | ok value st =>
    unfold Script.traced at htraced
    rw [htraced] at herases
    exact herases
  | error halt st =>
    have hhalt := h st
    rw [htraced] at hhalt
    unfold Script.traced at htraced
    rw [htraced] at herases
    cases halt with
    | failed failure place => exact herases
    | unfinished => exact absurd herases (hends st)
    | compared => exact absurd rfl hhalt

/-- A run on the tree that fails does so at some place. -/
theorem Script.ComparesNoFunctions.exists_place (h : script.ComparesNoFunctions config level)
    {steps : Nat} {failure : Failure} {st : RunState}
    (hrun : script.runOn .tree steps (.new config level) = .error (.failed failure) st) :
    ∃ place, script.traced config level = .error (.failed failure place) st := by
  have hsteps : config.nestingLimit < config.nestingLimit + 1 + steps := by omega
  have hends (st' : RunState) : script.runOn .tree steps (.new config level) ≠
      .error .unfinished st' := by
    simp [hrun]
  have hmore := Script.runOn_eq_of_le .tree (Nat.le_add_left steps (config.nestingLimit + 1)) script
    hends
  have hsame := h.runOn_tree hsteps
  rw [hmore, hrun] at hsame
  cases htraced : script.traced config level with
  | ok value st' => simp [htraced] at hsame
  | error halt st' =>
    rw [htraced] at hsame
    cases halt with
    | failed failure' place =>
      cases hsame
      exact ⟨place, rfl⟩
    | _ => exact hsame.elim

/-! ## Outcomes -/

/-- The state that a run leaves. -/
def Outcome.state : Outcome → RunState
  | .ok _ st | .error _ st => st

/-- Two runs give values that agree, or fail with the same cause, and they print the same text. -/
def Outcome.AgreesWith : Outcome → Outcome → Prop
  | .ok value st, .ok found st' => value.AgreesWith st found st'
  | .error (.failed failure) st, .error (.failed found) st' =>
    failure.cause = found.cause ∧ st.output = st'.output
  | _, _ => False

/-- Something ran out in a machine, so that its run stopped. -/
def Stop.RanOut (stop : Stop) (st : RunState) : Prop :=
  stop.IsExhaustion ∨ indexBound ≤ st.dict.size

theorem Stop.not_ranOut {stop : Stop} {st : RunState} (hroom : ¬ stop.IsExhaustion)
    (hdict : st.dict.size < indexBound) : ¬ stop.RanOut st :=
  not_or.mpr ⟨hroom, Nat.not_le_of_lt hdict⟩

section Scripts

variable (h : script.Accepted config level main pool) (hfree : script.isCaptureFree = true)
include h hfree

/-- Where the run on the tree gives a value, that of the machine gives one that agrees. -/
theorem Script.Accepted.machine_agrees {value : Value} {st : RunState}
    (htraced : script.traced config level = .ok value st) :
    ∃ enough, ∀ steps, enough ≤ steps →
      Ensures (script.runOn .machine steps) (.new config level) (value.AgreesWith st)
        Stop.RanOut := by
  unfold Script.traced at htraced
  obtain ⟨enough, hfinishes⟩ := h.runOn_finishes (E := fun failure m ↦ m.RanOut failure)
    (P := fun found m ↦ value.AgreesWith st found m.run) fun code hcode ↦ by
      have hcall := Function.callTraced_simulated h.program (config.nestingLimit + 1)
      refine Ensures.mono (h.simulates hfree hcall hcode)
        (fun _ m hm ↦ ?_) fun _ _ h ↦ h
      unfold Simulates at hm
      rwa [htraced] at hm
  refine ⟨enough, fun steps hsteps ↦ (hfinishes steps hsteps).mono ?_ ?_⟩
  · rintro found _ ⟨m, hagrees, rfl⟩
    exact hagrees
  · rintro _ _ ⟨failure, m, rfl, hran, rfl⟩
    exact hran.imp id And.right

/-- Where the run on the tree fails, that of the machine fails alike. -/
theorem Script.Accepted.machine_failsAlike {failure : Failure} {place : Place} {st : RunState}
    (htraced : script.traced config level = .error (.failed failure place) st)
    (hroom : ¬ failure.IsExhaustion) :
    ∃ enough, ∀ steps, enough ≤ steps →
      Ensures (script.runOn .machine steps) (.new config level) (fun _ _ ↦ False)
        fun stop st' ↦ stop.RanOut st' ∨ ∃ found, stop = .failed found ∧
          failure.Agrees "main" 0 place found ∧ st'.output = st.output := by
  unfold Script.traced at htraced
  obtain ⟨enough, hfinishes⟩ := h.runOn_finishes (E := FailsAlike "main" 0 failure place st)
    (P := fun _ _ ↦ False) fun code hcode ↦ by
      have hcall := Function.callTraced_simulated h.program (config.nestingLimit + 1)
      refine Ensures.mono (h.simulates hfree hcall hcode)
        (fun _ m hm ↦ ?_) ?_
      · unfold Simulates at hm
        rw [htraced] at hm
        exact (hm.resolve_left hroom).mono fun _ ↦ False.elim
      · rintro _ m ⟨found, rfl, hran⟩
        exact ⟨found, rfl, .inl hran⟩
  refine ⟨enough, fun steps hsteps ↦ (hfinishes steps hsteps).mono ?_ ?_⟩
  · rintro _ _ ⟨m, hfalse, -⟩
    exact hfalse
  · rintro _ _ ⟨found, m, rfl, hran | hagrees, rfl⟩
    · exact .inl (hran.imp id And.right)
    · exact .inr ⟨found, rfl, hagrees⟩

end Scripts

/-- With budgets that are great enough, the two engines agree about an accepted script in which no
function reads a variable of a function around it: if nothing runs out, neither on the tree nor in
the machine, and if no two functions of the program are compared, then both runs print the same
text, and both give values that look alike, or both fail with the same cause. -/
theorem engines_agree (h : script.Accepted config level main pool)
    (hfree : script.isCaptureFree = true)
    (hcompares : script.ComparesNoFunctions config level) :
    ∃ enough, ∀ steps more, enough ≤ steps → enough ≤ more →
      ¬ Outcome.IsExhausted (script.runOn .tree steps (.new config level)) →
      ¬ Outcome.IsExhausted (script.runOn .machine more (.new config level)) →
      (Outcome.state (script.runOn .machine more (.new config level))).dict.size < indexBound →
      Outcome.AgreesWith (script.runOn .tree steps (.new config level))
        (script.runOn .machine more (.new config level)) := by
  -- The run on the tree ends with every budget above the nesting limit, and the way it ends decides
  -- what the machine leads to.
  have htree (steps : Nat) (hsteps : config.nestingLimit < steps) := hcompares.runOn_tree hsteps
  cases htraced : script.traced config level with
  | ok value st =>
    rw [htraced] at htree
    obtain ⟨enough, hmachine⟩ := h.machine_agrees hfree htraced
    refine ⟨enough + config.nestingLimit + 1, fun steps more hsteps hmore _ hroom hdict ↦ ?_⟩
    have hends := hmachine more (by omega)
    rw [htree steps (by omega)]
    unfold Ensures at hends
    cases hrun : script.runOn .machine more (.new config level) with
    | ok found st' =>
      rw [hrun] at hends
      exact hends
    | error stop st' =>
      rw [hrun] at hends hroom hdict
      exact absurd hends (Stop.not_ranOut hroom hdict)
  | error halt st =>
    rw [htraced] at htree
    cases halt with
    | failed failure place =>
      by_cases hexhausted : failure.IsExhaustion
      · refine ⟨config.nestingLimit + 1, fun steps more hsteps _ hroom _ _ ↦ ?_⟩
        rw [htree steps hsteps] at hroom
        exact absurd hexhausted hroom
      · obtain ⟨enough, hmachine⟩ := h.machine_failsAlike hfree htraced hexhausted
        refine ⟨enough + config.nestingLimit + 1, fun steps more hsteps hmore _ hroom hdict ↦ ?_⟩
        have hends := hmachine more (by omega)
        rw [htree steps (by omega)]
        unfold Ensures at hends
        cases hrun : script.runOn .machine more (.new config level) with
        | ok found st' =>
          rw [hrun] at hends
          exact hends.elim
        | error stop st' =>
          rw [hrun] at hends hroom hdict
          obtain ⟨found, rfl, hagrees, houtput⟩ := hends.resolve_left (Stop.not_ranOut hroom hdict)
          exact ⟨hagrees.cause.symm, houtput.symm⟩
    | _ => exact (htree _ (Nat.lt_succ_self _)).elim

/-- A program that prints, and gives a record that a function was called with. -/
def passedRecord : Script :=
  .ofList [.lambda (some "same") ["v"] [.returning (.read "v")],
    .applyGlobal "print" [.str "one record"],
    .returning (.applyGlobal "same" [.objectOf [("x", .int 7)]])]

/-- The text that a run printed that gave a value, with the size of its dictionary. -/
def Outcome.printed? : Outcome → Option (String × Nat)
  | .ok _ st => some (st.output, st.dict.size)
  | .error _ _ => none

theorem Outcome.of_printed {outcome : Outcome} {output : String} {size : Nat}
    (h : outcome.printed? = some (output, size)) :
    ∃ value st, outcome = .ok value st ∧ st.dict.size = size := by
  cases outcome with
  | ok value st =>
    cases h
    exact ⟨value, st, rfl, rfl⟩
  | error stop st => cases h

theorem passedRecord_agrees :
    ∃ main pool steps, passedRecord.Accepted {} none main pool ∧ passedRecord.isCaptureFree = true ∧
      passedRecord.ComparesNoFunctions {} none ∧
      ¬ Outcome.IsExhausted (passedRecord.runOn .tree steps (.new {})) ∧
      ¬ Outcome.IsExhausted (passedRecord.runOn .machine steps (.new {})) ∧
      (Outcome.state (passedRecord.runOn .machine steps (.new {}))).dict.size < indexBound ∧
      Outcome.AgreesWith (passedRecord.runOn .tree steps (.new {}))
        (passedRecord.runOn .machine steps (.new {})) := by
  have hcheck : passedRecord.isAccepted none = true := by decide +kernel
  have hfree : passedRecord.isCaptureFree = true := by decide +kernel
  have hcompares : passedRecord.ComparesNoFunctions {} none :=
    Script.comparesNoFunctions_of_check (by decide +kernel)
  have htree : Outcome.printed? (passedRecord.runOn .tree 60 (.new {})) =
    some ("one record\n", 1) := by decide +kernel
  have hmachine : Outcome.printed? (passedRecord.runOn .machine 60 (.new {})) =
    some ("one record\n", 8) := by decide +kernel
  obtain ⟨main, pool, h⟩ := Script.accepted_of_check hcheck {}
  obtain ⟨value, st, htree, -⟩ := Outcome.of_printed htree
  obtain ⟨found, st', hmachine, hsize⟩ := Outcome.of_printed hmachine
  obtain ⟨enough, hagree⟩ := engines_agree h hfree hcompares
  have hmore (engine : Engine) {value : Value} {st : RunState}
      (hrun : passedRecord.runOn engine 60 (.new {}) = .ok value st) :
      passedRecord.runOn engine (60 + enough) (.new {}) = .ok value st := by
    have hends (st' : RunState) :
        passedRecord.runOn engine 60 (.new {}) ≠ .error .unfinished st' := by
      simp [hrun]
    exact (Script.runOn_eq_of_le engine (Nat.le_add_right 60 enough) passedRecord hends).trans hrun
  have hagrees := hagree (60 + enough) (60 + enough) (Nat.le_add_left _ _) (Nat.le_add_left _ _)
  rw [hmore .tree htree, hmore .machine hmachine] at hagrees
  have hdict : st'.dict.size < indexBound := by
    rw [hsize]
    decide
  refine ⟨main, pool, 60 + enough, h, hfree, hcompares, ?_⟩
  rw [hmore .tree htree, hmore .machine hmachine]
  exact ⟨id, id, hdict, hagrees id id hdict⟩

/-! ## Locations of failures -/

/-- A failure is located alike by the two engines. It happens in the body of some function on the
tree, and both engines report this function; if the node that fails or one around it in this body
has a line, they also report the line of the nearest such node. -/
theorem failures_located_alike (h : script.Accepted config level main pool)
    (hfree : script.isCaptureFree = true)
    (hcompares : script.ComparesNoFunctions config level) {steps more : Nat}
    {failure found : Failure} {st st' : RunState}
    (htree : script.runOn .tree steps (.new config level) = .error (.failed failure) st)
    (hmachine : script.runOn .machine more (.new config level) = .error (.failed found) st')
    (hroom : ¬ failure.IsExhaustion) (hroom' : ¬ found.IsExhaustion)
    (hdict : st'.dict.size < indexBound) :
    ∃ place name, script.traced config level = .error (.failed failure place) st ∧
      place.function = some name ∧ failure.context.function = some name ∧
      found.context.function = some name ∧ ∀ line, place.line? = some line →
        failure.context.line = some line ∧ found.context.line = some line := by
  obtain ⟨place, htraced⟩ := hcompares.exists_place htree
  obtain ⟨name, hname⟩ := Script.function_of_failed htraced hroom
  obtain ⟨enough, hfails⟩ := h.machine_failsAlike hfree htraced hroom
  have hends (st' : RunState) : script.runOn .machine more (.new config level) ≠
      .error .unfinished st' := by
    simp [hmachine]
  have hfailed := hfails (more + enough) (Nat.le_add_left _ _)
  unfold Ensures at hfailed
  rw [Script.runOn_eq_of_le .machine (Nat.le_add_right more enough) script hends, hmachine]
    at hfailed
  obtain ⟨_, hfound, hagrees, -⟩ := hfailed.resolve_left (Stop.not_ranOut hroom' hdict)
  obtain rfl := Stop.failed.inj hfound
  exact ⟨place, name, htraced, hname, hagrees.outside name hname⟩

/-- A program that fails on line 3 of a function, which it calls on line 5. -/
def lineOfFailure : Script :=
  .ofList [.lambda (some "half") ["n"]
      [(Expr.returning (.applyGlobal "/" [.read "n", .int 0])).onLine 3],
    (Expr.applyGlobal "half" [.int 8]).onLine 5]

theorem of_failedWith {outcome : Outcome} {cause : Cause} {size : Nat}
    (h : failedWith outcome = some (cause, size)) :
    ∃ failure st, outcome = .error (.failed failure) st ∧ failure.cause = cause ∧
      st.dict.size = size := by
  cases outcome with
  | ok value st => cases h
  | error stop st =>
    cases stop with
    | unfinished => cases h
    | failed failure =>
      cases h
      exact ⟨failure, st, rfl, rfl, rfl⟩

/-- The line where a traced run fails. -/
def tracedLine? : EStateM.Result Halt RunState Value → Option UInt32
  | .error (.failed _ place) _ => place.line?
  | _ => none

theorem lineOfFailure_located_alike :
    ∃ main pool failure found st st', lineOfFailure.Accepted {} none main pool ∧
      lineOfFailure.isCaptureFree = true ∧ lineOfFailure.ComparesNoFunctions {} none ∧
      lineOfFailure.runOn .tree 60 (.new {}) = .error (.failed failure) st ∧
      lineOfFailure.runOn .machine 60 (.new {}) = .error (.failed found) st' ∧
      ¬ failure.IsExhaustion ∧ ¬ found.IsExhaustion ∧ st'.dict.size < indexBound ∧
      failure.context.function = found.context.function ∧
      failure.context.line = some 3 ∧ found.context.line = some 3 := by
  have hcheck : lineOfFailure.isAccepted none = true := by decide +kernel
  have hfree : lineOfFailure.isCaptureFree = true := by decide +kernel
  have hcompares : lineOfFailure.ComparesNoFunctions {} none :=
    Script.comparesNoFunctions_of_check (by decide +kernel)
  have htree : failedWith (lineOfFailure.runOn .tree 60 (.new {})) = some (.divisionByZero, 1) := by
    decide +kernel
  have hmachine : failedWith (lineOfFailure.runOn .machine 60 (.new {})) =
    some (.divisionByZero, 6) := by decide +kernel
  have hline : tracedLine? (lineOfFailure.traced {} none) = some 3 := by decide +kernel
  obtain ⟨main, pool, h⟩ := Script.accepted_of_check hcheck {}
  obtain ⟨failure, st, htree, hcause, -⟩ := of_failedWith htree
  obtain ⟨found, st', hmachine, hcause', hsize⟩ := of_failedWith hmachine
  have hroom : ¬ failure.IsExhaustion := by
    rintro ⟨resource, capacity, hexhausted⟩
    simp [hcause] at hexhausted
  have hroom' : ¬ found.IsExhaustion := by
    rintro ⟨resource, capacity, hexhausted⟩
    simp [hcause'] at hexhausted
  have hdict : st'.dict.size < indexBound := by
    rw [hsize]
    decide
  obtain ⟨place, name, htraced, -, hfunction, hfunction', hlines⟩ :=
    failures_located_alike h hfree hcompares htree hmachine hroom hroom' hdict
  rw [htraced] at hline
  exact ⟨main, pool, failure, found, st, st', h, hfree, hcompares, htree, hmachine, hroom, hroom',
    hdict, hfunction.trans hfunction'.symm, hlines 3 hline⟩

end TandemScript
