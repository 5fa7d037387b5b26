import TandemScript.Proofs.Conditions
import TandemScript.Proofs.Limits
import TandemScript.Proofs.LiteralPlaces
import TandemScript.Proofs.Recording

/-!
# Identity of functions

Functions are equal if they have the same number. On the tree every evaluation of a literal takes a
new number. In a machine it pushes the function that was compiled for the literal, which has the
same number every time. So the engines agree about two functions that different literals gave, and
differ about two that the same literal gave.
-/

namespace TandemScript

/-- The built-in equality of functions. -/
theorem Builtin.call_eq_functions (records : Records) (f g : Function) :
    Builtin.eq.call records [.function f, .function g] =
      (.ok (.ofBool (decide (f.id = g.id))), "") :=
  rfl

/-! ## First states -/

theorem Bindings.initial_trusted {lib : Library}
    (h : ∀ op : Builtin, lib.function? op.function.id = none) :
    initial.All (Value.IsTrusted lib) := by
  intro name value hvalue
  rcases get?_initial hvalue with ⟨op, rfl⟩ | rfl
  · rintro _ ⟨⟩
    exact .inr ⟨rfl, h op⟩
  · exact .of_not_function (by simp)

/-- A run that begins trusts all its values if this holds of its dictionary. -/
theorem RunState.Trusted.new {lib : Library} {pool : Pool}
    (hbuiltins : ∀ op : Builtin, lib.function? op.function.id = none)
    (hgrows : lib.dict.GrowsTo pool.dict)
    (hentries : ∀ index value, pool.dict.get? index = some value → value.IsTrusted lib)
    (hfresh : ∀ id, pool.nextId ≤ id → lib.function? id = none) (config : Config) (depth : Nat) :
    RunState.Trusted lib { RunState.new config with toPool := pool, depth } where
  globals := Bindings.initial_trusted hbuiltins
  frames _ hbindings := absurd hbindings (Array.not_mem_empty _)
  records _ hrecord := absurd hrecord (Array.not_mem_empty _)
  grows := hgrows
  entries := hentries
  fresh := hfresh
  hosts _ hrespond := absurd hrespond (Array.not_mem_empty _)

/-! ## On the tree -/

/-- Without functions that have code no run on the tree is cut off at one. -/
theorem Function.callOnTree_trusting {lib : Library} (hempty : ∀ id, lib.function? id = none)
    (steps : Nat) : (Function.callWithin steps).Trusting lib (Function.callOnTree steps) := by
  induction steps with
  | zero => exact fun _ _ _ _ _ _ ↦ .self fun _ _ ↦ .of_error rfl trivial
  | succ steps ih =>
    intro f receiver args hf hreceiver hargs
    unfold callWithin callOnTree
    cases hbody : f.body with
    | native op => exact .native op hreceiver hargs
    | closure params body env =>
      exact .insideCall (f.evaluate_trusting ih params body env hreceiver hargs)
    | bytecode code =>
      have hcode : f.code? = some code := by simp [Function.code?, hbody]
      cases (hempty f.id).symm.trans (hf.library hcode)

/-- A run on the tree, with a record of the functions that literals gave. -/
def Script.recorded (script : Script) (config : Config) (level : Option Level) (steps : Nat) :
    EStateM.Result Stop Recording Value :=
  script.evaluateRecorded (Function.callRecorded steps) ⟨.new config level, []⟩

/-- The functions that literals gave in a run on the tree, one for each evaluation. -/
def Script.madeOnTree (script : Script) (config : Config) (level : Option Level) (steps : Nat) :
    List Function :=
  (finalState (script.recorded config level steps)).made

/-- A run on the tree is a recorded one, and its record has all numbers behind those of the built-in
functions. -/
theorem Script.recorded_spec (script : Script) (config : Config) (level : Option Level)
    (steps : Nat) :
    script.runOn .tree steps (.new config level) = erased (script.recorded config level steps) ∧
      (finalState (script.recorded config level steps)).Counts Builtin.all.length := by
  let lib := Library.of .new [] rfl (by simp) (by simp)
  have hempty (id : Nat) : lib.function? id = none := rfl
  have htrusted : RunState.Trusted lib (.new config level) := by
    refine .new (fun _ ↦ hempty _) (.refl _) ?_ (fun id _ ↦ hempty id) config 0
    intro index value hvalue
    have hmem : value ∈ #[Value.undefined] := Array.mem_of_getElem? hvalue
    obtain rfl := List.mem_singleton.mp (Array.mem_def.mp hmem)
    exact .undefined
  have hcut := (script.evaluate_trusting (Function.callOnTree_trusting hempty steps)
    (.new config level) htrusted).1
  have hcounts : Recording.Counts Builtin.all.length ⟨.new config level, []⟩ := ⟨by simp, rfl⟩
  obtain ⟨hsame, hcounts'⟩ := script.evaluateRecorded_erases (Function.callRecorded_erases steps)
    Builtin.all.length ⟨.new config level, []⟩ hcounts
  exact ⟨hcut.symm.trans hsame, hcounts'⟩

/-- Functions in the record have the same number exactly if they are at the same place. -/
theorem Recording.Counts.id_eq_iff {first : Nat} {s : Recording} (h : s.Counts first) {i j : Nat}
    {f g : Function} (hf : s.made[i]? = some f) (hg : s.made[j]? = some g) :
    f.id = g.id ↔ i = j := by
  rw [h.id i f hf, h.id j g hg]
  exact Nat.add_left_cancel_iff

/-! ## In a machine -/

namespace Program

variable {p : Program} {f : Function}

/-- The functions that the program itself defines. -/
def functions (p : Program) : List Function :=
  p.main :: p.pool.dict.entries.toList.filterMap fun
    | .function f => some f
    | _ => none

theorem mem_functions : f ∈ p.functions ↔ p.Defines f := by
  have hentry (value : Value) : (match value with
      | .function f => some f
      | _ => none) = some f ↔ value = .function f := by
    cases value <;> simp
  have hmem (value : Value) :
      value ∈ p.pool.dict.entries.toList ↔ ∃ index, p.pool.dict.get? index = some value := by
    rw [Array.mem_toList_iff]
    exact Array.mem_iff_getElem?
  simp only [functions, Defines, List.mem_cons, List.mem_filterMap, hentry, exists_eq_right, hmem]

end Program

namespace Script.Accepted

variable {script : Script} {config : Config} {level : Option Level} {main : Function} {pool : Pool}

/-- The functions of a program, as a library. -/
def library (h : script.Accepted config level main pool) : Library :=
  .of pool.dict h.program.functions h.spec.1.undefined
    (fun _ hf ↦ h.isCompiledFor (Program.mem_functions.mp hf))
    fun _ hf ↦ (Program.mem_functions.mp hf).isShort

theorem library_eq_some (h : script.Accepted config level main pool) {id : Nat} {f : Function} :
    h.library.function? id = some f ↔ h.program.Defines f ∧ f.id = id := by
  constructor
  · intro hf
    exact ⟨Program.mem_functions.mp (Library.mem_of_function? hf), h.library.number id f hf⟩
  · rintro ⟨hf, rfl⟩
    cases hfound : h.library.function? f.id with
    | none =>
      have hother := List.find?_eq_none.mp hfound f (Program.mem_functions.mpr hf)
      simp at hother
    | some g =>
      have hg := Program.mem_functions.mp (Library.mem_of_function? hfound)
      rw [hg.unique hf (h.library.number _ g hfound)]

/-- The numbers of the functions of a program lie between those of the built-in functions and the
next one. -/
theorem library_eq_none (h : script.Accepted config level main pool) {id : Nat}
    (hid : id < Builtin.all.length ∨ pool.nextId ≤ id) : h.library.function? id = none := by
  cases hfound : h.library.function? id with
  | none => rfl
  | some f =>
    obtain ⟨hf, rfl⟩ := h.library_eq_some.mp hfound
    obtain ⟨hbuiltins, hnext, -⟩ := hf.settled
    have hnext : f.id < pool.nextId := hnext
    omega

theorem initial_trusted (h : script.Accepted config level main pool) (depth : Nat) :
    RunState.Trusted h.library { h.program.initial config with depth } := by
  refine .new (fun op ↦ h.library_eq_none (.inl op.id_lt)) (.refl _) ?_
    (fun id hid ↦ h.library_eq_none (.inr hid)) config depth
  intro index value hvalue f hf
  subst hf
  exact .inl (h.library_eq_some.mpr ⟨.inr ⟨index, hvalue⟩, rfl⟩)

/-- In every state of its run the machine of an accepted script stands at an instruction of a
function of the program. -/
theorem seated (h : script.Accepted config level main pool) {m₀ m : Machine}
    (hentered : script.entered? config level = some m₀) {steps count : Nat}
    (hafter : m₀.after (Function.callWithin steps) count = some m) :
    ∃ callers, m.Seated h.library callers := by
  obtain ⟨code, hcode, harity⟩ := h.main_code
  have henter := (h.entered?_eq_some hcode).mp hentered
  have hmain : h.library.function? main.id = some main := h.library_eq_some.mpr ⟨.inl rfl, rfl⟩
  have hvisits : main.Visits (Function.callWithin steps) .undefined []
      { h.program.initial config with depth := 1 } m :=
    ⟨code, m₀, count, hcode, harity, henter, hafter⟩
  exact hvisits.seated (Function.callJudged_trusting h.library .unfinished steps)
    (Function.callWithin_moves steps) (h.initial_trusted 1) hmain .undefined (by simp)

end Script.Accepted

/-- The machine is about to push a function, as it does at a literal. -/
def Machine.AtFunctionLiteral (f : Function) (m : Machine) : Prop :=
  ∃ word, m.code.fetch? m.pc = some (.instruction (.const word)) ∧
    m.run.dict.value word = .ok (.function f)

theorem Machine.Seated.pushes {lib : Library} {callers : List Waiting} {m : Machine} {f : Function}
    (h : m.Seated lib callers) (hliteral : m.AtFunctionLiteral f) :
    m.function.Pushes lib.dict m.pc f := by
  obtain ⟨word, hfetch, hword⟩ := hliteral
  obtain ⟨height, hmeasured, ⟨i, hholds⟩, -⟩ := h.stands
  obtain rfl : i = .const word := by simpa [hholds.fetch?] using hfetch
  obtain ⟨value, hdenotes⟩ : ∃ value, lib.dict.Denotes word value := hmeasured.names _ _ hholds
  refine ⟨m.code, word, h.code, hholds, ?_⟩
  obtain rfl := (hdenotes.mono h.run.grows).eq_function hword
  cases hdenotes with
  | entry hvalue => exact hvalue

theorem Function.Pushes.unique {dict : Dictionary} {owner f f' : Function} {pc : Nat}
    (h : owner.Pushes dict pc f) (h' : owner.Pushes dict pc f') : f = f' := by
  obtain ⟨code, word, hcode, hholds, hword⟩ := h
  obtain ⟨code', word', hcode', hholds', hword'⟩ := h'
  obtain rfl := Option.some.inj (hcode.symm.trans hcode')
  have hsame := hholds.fetch?.symm.trans hholds'.fetch?
  simp only [Option.some.injEq, Fetched.instruction.injEq, Instruction.const.injEq] at hsame
  subst hsame
  exact Value.function.inj (Except.ok.inj (hword.symm.trans hword'))

/-- Functions that are pushed in two states of a run have the same number exactly if the same place
of the same function pushes them. -/
theorem Script.Accepted.id_eq_iff {script : Script} {config : Config} {level : Option Level}
    {main : Function} {pool : Pool} (h : script.Accepted config level main pool) {m₀ m m' : Machine}
    (hentered : script.entered? config level = some m₀) {steps count count' : Nat}
    (hafter : m₀.after (Function.callWithin steps) count = some m)
    (hafter' : m₀.after (Function.callWithin steps) count' = some m') {f f' : Function}
    (hf : m.AtFunctionLiteral f) (hf' : m'.AtFunctionLiteral f') :
    f.id = f'.id ↔ m.function.id = m'.function.id ∧ m.pc = m'.pc := by
  obtain ⟨callers, hseated⟩ := h.seated hentered hafter
  obtain ⟨callers', hseated'⟩ := h.seated hentered hafter'
  have hpushes : m.function.Pushes pool.dict m.pc f := hseated.pushes hf
  have hpushes' : m'.function.Pushes pool.dict m'.pc f' := hseated'.pushes hf'
  have howner := (h.library_eq_some.mp hseated.library).1
  have howner' := (h.library_eq_some.mp hseated'.library).1
  constructor
  · intro hid
    obtain ⟨hsame, hpc⟩ := h.place_unique howner howner' hpushes hpushes' hid
    exact ⟨congrArg Function.id hsame, hpc⟩
  · rintro ⟨hid, hpc⟩
    rw [howner.unique howner' hid, hpc] at hpushes
    rw [hpushes.unique hpushes']

/-! ## Comparisons -/

/-- In the machine of an accepted script the built-in equality says of the functions that two
evaluations of literals gave whether these are evaluations of the same literal: at the same place of
the code of the same function. In the run on the tree, where the record misses no function that the
run made, it says whether they are the same evaluation. -/
theorem literals_compared {script : Script} {config : Config} {level : Option Level}
    {main : Function} {pool : Pool} (h : script.Accepted config level main pool) (steps : Nat) :
    (∀ m₀ m m' count count' f f' records, script.entered? config level = some m₀ →
      m₀.after (Function.callWithin steps) count = some m →
      m₀.after (Function.callWithin steps) count' = some m' →
      m.AtFunctionLiteral f → m'.AtFunctionLiteral f' →
      Builtin.eq.call records [.function f, .function f'] =
        (.ok (.ofBool (decide (m.function.id = m'.function.id ∧ m.pc = m'.pc))), "")) ∧
    script.runOn .tree steps (.new config level) = erased (script.recorded config level steps) ∧
    (finalState (script.runOn .tree steps (.new config level))).nextId =
      Builtin.all.length + (script.madeOnTree config level steps).length ∧
    ∀ (i j : Nat) f f' records, (script.madeOnTree config level steps)[i]? = some f →
      (script.madeOnTree config level steps)[j]? = some f' →
      Builtin.eq.call records [.function f, .function f'] =
        (.ok (.ofBool (decide (i = j))), "") := by
  obtain ⟨hsame, hcounts⟩ := script.recorded_spec config level steps
  refine ⟨?_, hsame, ?_, ?_⟩
  · intro m₀ m m' count count' f f' records hentered hafter hafter' hf hf'
    rw [Builtin.call_eq_functions, decide_eq_decide.mpr
      (h.id_eq_iff hentered hafter hafter' hf hf')]
  · rw [hsame, finalState_erased]
    exact hcounts.nextId
  · intro i j f f' records hf hf'
    rw [Builtin.call_eq_functions, decide_eq_decide.mpr (hcounts.id_eq_iff hf hf')]

/-- A program that compares two functions that the same literal gave. -/
def madeTwice : Script :=
  .ofList [.lambda (some "mk") [] [.returning (.lambda none [] [])],
    .returning (.applyGlobal "==" [.applyGlobal "mk" [], .applyGlobal "mk" []])]

/-- The function that a machine is about to push, if it is at a literal. -/
def Machine.literal? (m : Machine) : Option Function :=
  match m.code.fetch? m.pc with
  | some (.instruction (.const word)) =>
    match m.run.dict.value word with
    | .ok (.function f) => some f
    | _ => none
  | _ => none

theorem Machine.atFunctionLiteral_of_literal? {m : Machine} {f : Function}
    (h : m.literal? = some f) : m.AtFunctionLiteral f := by
  unfold literal? at h
  split at h
  · next word hfetch =>
    split at h
    · next g hword =>
      obtain rfl := Option.some.inj h
      exact ⟨word, hfetch, hword⟩
    · cases h
  · cases h

/-- In the machine the functions that the second literal gave are equal. On the tree, where they
are the second and the third function that literals gave, they are not. -/
theorem madeTwice_compared :
    ∃ main pool m₀ m m' f f' g g', madeTwice.Accepted {} none main pool ∧
      madeTwice.entered? {} none = some m₀ ∧ m₀.after (Function.callWithin 1) 9 = some m ∧
      m₀.after (Function.callWithin 1) 14 = some m' ∧
      m.AtFunctionLiteral f ∧ m'.AtFunctionLiteral f' ∧
      Builtin.eq.call {} [.function f, .function f'] = (.ok (.int 1), "") ∧
      (madeTwice.madeOnTree {} none 1)[1]? = some g ∧
      (madeTwice.madeOnTree {} none 1)[2]? = some g' ∧
      Builtin.eq.call {} [.function g, .function g'] = (.ok (.int 0), "") := by
  have hcheck : madeTwice.isAccepted none = true := by decide +kernel
  have hplace (count : Nat) (hcount : count = 9 ∨ count = 14) :
      ∃ m₀ m f, madeTwice.entered? {} none = some m₀ ∧
        m₀.after (Function.callWithin 1) count = some m ∧ m.AtFunctionLiteral f ∧
        m.function.id = 13 ∧ m.pc = 0 := by
    have hstate : (madeTwice.stateAfter count).map
        (fun m ↦ (m.literal?.isSome, m.function.id, m.pc)) = some (true, 13, 0) := by
      rcases hcount with rfl | rfl <;> decide +kernel
    obtain ⟨m, hstate, hm⟩ := Option.map_eq_some_iff.mp hstate
    obtain ⟨m₀, hentered, hafter⟩ := Option.bind_eq_some_iff.mp hstate
    obtain ⟨hliteral, hid, hpc⟩ : m.literal?.isSome = true ∧ m.function.id = 13 ∧ m.pc = 0 := by
      simpa using hm
    obtain ⟨f, hf⟩ := Option.isSome_iff_exists.mp hliteral
    exact ⟨m₀, m, f, hentered, hafter, Machine.atFunctionLiteral_of_literal? hf, hid, hpc⟩
  have hmade : (madeTwice.madeOnTree {} none 1).length = 3 := by decide +kernel
  obtain ⟨main, pool, h⟩ := Script.accepted_of_check hcheck {}
  obtain ⟨m₀, m, f, hentered, hafter, hf, hid, hpc⟩ := hplace 9 (.inl rfl)
  obtain ⟨m₁, m', f', hentered', hafter', hf', hid', hpc'⟩ := hplace 14 (.inr rfl)
  obtain rfl := Option.some.inj (hentered.symm.trans hentered')
  have hg := List.getElem?_eq_getElem (l := madeTwice.madeOnTree {} none 1) (i := 1) (by omega)
  have hg' := List.getElem?_eq_getElem (l := madeTwice.madeOnTree {} none 1) (i := 2) (by omega)
  obtain ⟨hmachine, -, -, htree⟩ := literals_compared h 1
  have hequal := hmachine m₀ m m' 9 14 f f' {} hentered hafter hafter' hf hf'
  rw [hid, hid', hpc, hpc'] at hequal
  exact ⟨main, pool, m₀, m, m', f, f', _, _, h, hentered, hafter, hafter', hf, hf', hequal, hg, hg',
    htree 1 2 _ _ {} hg hg'⟩

/-- The engines give different answers to this comparison. -/
theorem madeTwice_answered_differently :
    ∃ main pool, madeTwice.Accepted {} none main pool ∧ madeTwice.isCaptureFree = true ∧
      Outcome.int? (madeTwice.runOn .machine 60 (.new {})) = some 1 ∧
      Outcome.int? (madeTwice.runOn .tree 60 (.new {})) = some 0 := by
  obtain ⟨main, pool, h⟩ := Script.accepted_of_check
    (show madeTwice.isAccepted none = true by decide +kernel) {}
  have hfree : madeTwice.isCaptureFree = true := by decide +kernel
  have hmachine : Outcome.int? (madeTwice.runOn .machine 60 (.new {})) = some 1 := by
    decide +kernel
  have htree : Outcome.int? (madeTwice.runOn .tree 60 (.new {})) = some 0 := by decide +kernel
  exact ⟨main, pool, h, hfree, hmachine, htree⟩

end TandemScript
