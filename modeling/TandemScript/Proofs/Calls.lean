import TandemScript.Proofs.Evaluation

/-!
# Calls do what the tree does

A function of the program is entered with the same receiver and arguments on both sides, its body
comes to the same, and the machine goes back to the caller with a word for the result. By induction
on the calls that may still nest on the tree, every call is simulated.
-/

namespace TandemScript

variable {p : Program} {w w' : World} {m m₁ : Machine} {own : FrameId} {env : Env}
  {outer : List Shape} {pc : Nat} {stack args : Array Word} {callee receiver : Word}
  {st : RunState} {line : UInt32} {rest : Fragment} {params : List String} {target : Value}
  {values : List Value} {call : TracedCaller}

/-! ## Windows and activations -/

/-- A complete window has words for the receiver, the arguments and the undefined variables. -/
theorem completed_stands {slots count slot : Nat} {value : Value} (savedBp savedPc function : Word)
    (hreceiver : receiver.Stands p w target) (hargs : Word.StandAll p w args values)
    (hundefined : Word.undefined.Stands p w .undefined)
    (hsize : (window stack callee receiver args).size ≤ stack.size + 1 + slots)
    (hslot : slot < slots)
    (hvalue : (target :: values ++ List.replicate count .undefined)[slot]? = some value) :
    ∃ word, (completed (window stack callee receiver args) (stack.size + 1) slots savedBp savedPc
      function)[stack.size + 1 + slot]? = some word ∧ word.Stands p w value := by
  have hwindow := size_window stack callee receiver args
  rw [List.cons_append] at hvalue
  cases slot with
  | zero =>
    obtain rfl := Option.some.inj hvalue
    refine ⟨receiver, ?_, hreceiver⟩
    rw [completed_below _ _ _ _ _ _ (by omega)]
    exact window_receiver ..
  | succ index =>
    rw [List.getElem?_cons_succ] at hvalue
    have hplace : stack.size + 1 + (index + 1) = stack.size + 2 + index := by omega
    by_cases hlt : index < args.size
    · rw [List.getElem?_append_left (by rw [← hargs.size]; exact hlt)] at hvalue
      have hword : args[index]? = some args[index] := Array.getElem?_eq_getElem hlt
      refine ⟨args[index], ?_, hargs.each index _ value hword hvalue⟩
      rw [hplace, completed_below _ _ _ _ _ _ (by omega), window_arg, hword]
    · rw [List.getElem?_append_right (by rw [← hargs.size]; omega)] at hvalue
      obtain rfl := List.eq_of_mem_replicate (List.mem_of_getElem? hvalue)
      exact ⟨Word.undefined, completed_variable hsize _ _ _ (by omega) (by omega), hundefined⟩

/-- The world with a new activation. -/
def World.activate (w : World) (bindings : Bindings) : World :=
  { w with frames := (w.frames.add bindings).2 }

theorem World.Extends.activate (w : World) (bindings : Bindings) :
    w.Extends none (w.activate bindings) :=
  .withFrames w (.add w.frames bindings)

/-- A new activation has its variables in the window that is completed for it. -/
theorem Activation.enter {name : String} {body : Block} (savedBp savedPc function : Word)
    (hreceiver : receiver.Stands p w target) (hargs : Word.StandAll p w args values)
    (hundefined : Word.undefined.Stands p w .undefined) (hlength : values.length = params.length)
    (hmatch : w.frames.Match env outer) :
    Activation p (w.activate (.activation target params values body.declared))
      w.frames.cells.size env ⟨name, .ofFunction params body :: outer⟩ (stack.size + 1)
      (completed (window stack callee receiver args) (stack.size + 1)
        (Shape.ofFunction params body).size savedBp savedPc function) := by
  obtain ⟨count, hfits⟩ := Bindings.activation_fits target params values body hlength
  have hw := World.Extends.activate w (.activation target params values body.declared)
  have hcells : (w.activate (.activation target params values body.declared)).frames.cells[
      w.frames.cells.size]? = some (.activation target params values body.declared) :=
    Array.getElem?_push_size
  refine ⟨⟨⟨_, hcells, hfits.isSome⟩, hmatch.mono hw.frames⟩, fun name slot value hslot hvalue ↦ ?_⟩
  have hslot : (Shape.ofFunction params body).slot? name = some slot := hslot
  rw [Frames.getIn?_of_cells hcells, hfits.get?, hslot, Option.bind_some] at hvalue
  refine completed_stands savedBp savedPc function (hreceiver.mono hw) (hargs.mono hw)
    (hundefined.mono hw) ?_ (Shape.lt_of_slot? hslot) hvalue
  have harity := Shape.arity_le_size params body
  have hcount := hargs.size
  rw [size_window]
  omega

/-- The machine has just entered a function: its code is at the first instruction, and the window
is completed. The run on the tree has yet to make an activation. -/
structure Machine.Entered (p : Program) (w : World) (f : Function) (c : Code)
    (arguments : Array Word) (base : Nat) (savedBp savedPc caller : Word) (st : RunState)
    (m : Machine) : Prop where
  sound : m.Sound p w.objects
  function : m.function = f
  code : m.code = c
  pc : m.pc = 0
  bp : m.bp = base
  stack : m.stack = completed arguments base c.slots savedBp savedPc caller
  relates : w.Relates p st m.run m.heap

/-- In the new activation the machine is ready to run the code of the function. -/
theorem Machine.Entered.ready {f : Function} {code : Code} {instrs : List Expr}
    {fragment : Fragment} {savedBp savedPc caller : Word}
    (h : m.Entered p w f code (window stack callee receiver args) (stack.size + 1) savedBp savedPc
      caller st)
    (hemitted : p.Emitted f code outer params instrs line fragment)
    (hreceiver : receiver.Stands p w target) (hargs : Word.StandAll p w args values)
    (hundefined : Word.undefined.Stands p w .undefined) (hlength : values.length = params.length)
    (hmatch : w.frames.Match env outer) (log : Log) (depth : Nat) :
    m.Ready p w.frames.cells.size env ⟨f.name, .ofFunction params (.mk instrs line) :: outer⟩
      (w.activate (.activation target params values (Block.mk instrs line).declared)) 0 m.stack
      { st with
        log, depth, frames := (w.frames.add
          (.activation target params values (Block.mk instrs line).declared)).2 } m := by
  have hrelates := h.relates.withFrames (Frames.Keeps.add w.frames
    (.activation target params values (Block.mk instrs line).declared))
  have hfits : (window stack callee receiver args).size ≤ stack.size + 1 + code.slots := by
    have harity := Shape.arity_le_size params (.mk instrs line)
    have hcount := hargs.size
    rw [size_window, hemitted.slots]
    omega
  have hsize : m.stack.size = m.bp + m.code.slots + linkCells := by
    rw [h.stack, size_completed hfits, h.bp, h.code]
  refine ⟨⟨h.sound, rfl, rfl, rfl, h.pc, rfl, { hrelates with }⟩, Nat.le_of_eq hsize.symm, ?_, ?_⟩
  · rw [h.code]
    exact fun _ _ ↦ hemitted.slot_lt
  · rw [h.stack, h.bp, hemitted.slots]
    exact .enter _ _ _ hreceiver hargs hundefined hlength hmatch

/-! ## Bodies -/

/-- The body of a function comes to the same on both sides. Behind its code the machine returns the
undefined value. -/
theorem Program.Emitted.answers {instrs : List Expr} {fragment : Fragment}
    (hemitted : p.Emitted m.function m.code outer params instrs line fragment)
    (hcall : call.Simulated p)
    (hfree : Block.isCaptureFree (.ofFunction params (.mk instrs line) :: outer) (.mk instrs line) =
      true)
    (h : m.Ready p own env ⟨m.function.name, .ofFunction params (.mk instrs line) :: outer⟩ w 0
      stack st m) :
    Simulates m.function.name line (do
      let result ← (Block.mk instrs line).execTraced call (own :: env)
      return result.getD .undefined) st (m.Answers p own w stack) m := by
  refine .bind (hemitted.emits.execute hcall hfree hemitted.contains.left h) ?_
  rintro (_ | result) st₁ m₁ hfinishes
  · obtain ⟨w₁, stack', hw₁, hsame, h₁⟩ := hfinishes
    have hcode := hemitted.contains.right
    refine .of_ok rfl ((h₁.meets.const hcode h₁.meets.undefined).mono ?_)
    rintro m₂ ⟨w₂, word, hw₂, h₂, hword⟩
    exact ⟨w₂, stack', _, word, line, [], hw₁.trans hw₂.weaken, hsame, h₂, hword,
      Code.Contains.right (a := [_]) hcode⟩
  · exact .pure hfinishes

/-! ## Calls -/

/-- A function that takes so many arguments is entered, unless something runs out. -/
theorem Machine.Meets.enters (h : m.Meets p w pc (window stack callee receiver args) st m₁)
    (hcode : m.code.Contains pc ((.call (.ofNat args.size), line) :: rest)) {g : Function}
    {code : Code} (hword : w.dict.value callee = .ok (.function g)) (hg : g.code? = some code)
    (hslots : code.arity ≤ code.slots) (hbp : m₁.bp ≤ m₁.stack.size)
    (harity : code.arity = args.size + 1) :
    Leads (fun found m' ↦ m'.RanOut found)
      (fun m₂ ↦ ∃ caller dict, w.dict.GrowsTo dict ∧
        dict.value caller = .ok (.function m₁.function) ∧
        m₂.Entered p { w with dict } g code m₁.stack (stack.size + 1) (.small m₁.bp)
          (.small (m₁.pc + 2)) caller st) m₁ := by
  have hvalue : m₁.run.dict.value callee = .ok (.function g) := by
    rw [h.relates.dict]
    exact hword
  refine .next <| .callCompiled lenient_ranOut h.sound (h.contains hcode) h.stack hvalue hg hslots
    hbp ?_ fun hne ↦ absurd harity hne
  rintro - caller dict log _ hgrows hcaller rfl hs₂
  have hgrows : w.dict.GrowsTo dict := h.relates.dict ▸ hgrows
  exact .arrived ⟨caller, dict, hgrows, hcaller, hs₂, rfl, rfl, rfl, rfl, rfl,
    { h.relates.withDict hgrows with }⟩

/-- From its return the function that was entered goes back to the caller, with its result. -/
theorem Machine.Meets.leaves {m₂ m₃ : Machine} {g : Function} {code : Code} {dict : Dictionary}
    {caller : Word} {bindings : Bindings} {value : Value} {st₂ st₃ : RunState}
    (h : m.Meets p w pc (window stack callee receiver args) st m₁)
    (hcode : m.code.Contains pc ((.call (.ofNat args.size), line) :: rest))
    (hbp : m₁.bp ≤ m₁.stack.size) (hfits : m₁.stack.size ≤ stack.size + 1 + code.slots)
    (hgrows : w.dict.GrowsTo dict) (hcaller : dict.value caller = .ok (.function m₁.function))
    (h₂ : m₂.Entered p { w with dict } g code m₁.stack (stack.size + 1) (.small m₁.bp)
      (.small (m₁.pc + 2)) caller st₂)
    (hanswers : m₂.Answers p w.frames.cells.size (World.activate { w with dict } bindings) m₂.stack
      value st₃ m₃) :
    Leads (fun found m' ↦ m'.RanOut found) (m.Delivers p w (pc + 2) stack value st₃) m₃ := by
  obtain ⟨w₃, stack', pc', word, line', rest', hw₃, hsame, h₃, hresult, hret⟩ := hanswers
  rw [h₂.bp, h₂.code, h₂.stack] at hsame
  have hslots : m₃.code.slots = code.slots := congrArg Code.slots (h₃.code.trans h₂.code)
  refine .next <| .back h.sound (h.contains hcode) h.stack hfits h₃.sound (h₃.bp.trans h₂.bp)
    hslots (h₃.contains hret) h₃.stack hsame (h₃.relates.dict ▸ hw₃.dict.value hcaller) hbp ?_
  rintro log _ rfl hs₄
  refine .arrived ⟨w₃, word, ?_, ⟨hs₄, h.bp, h.function, h.code, congrArg (· + 2) h.pc, rfl,
    { h₃.relates with }⟩, hresult⟩
  -- The body has changed its own activation only, which is later than all that the caller knows.
  have hw : w.Extends (some w.frames.cells.size) w₃ :=
    (World.Extends.withDict w hgrows).weaken.trans
      ((World.Extends.activate _ bindings).weaken.trans hw₃)
  exact ⟨hw.dict, hw.objects, .of_later (Nat.le_refl _) hw.frames⟩

/-- A function of the program that is called does what its literal does on the tree, if calls inside
it are simulated. -/
theorem Machine.Meets.callClosure (hcall : call.Simulated p) {f g : Function} {body : Block}
    (h : m.Meets p w pc (window stack callee receiver args) st m₁)
    (hcode : m.code.Contains pc ((.call (.ofNat args.size), line) :: rest))
    (hframe : m.bp + m.code.slots + linkCells ≤ stack.size)
    (hword : w.dict.value callee = .ok (.function g)) (hname : g.name = f.name)
    (hemits : body.EmitsFunction p.pool.dict outer f.name params g)
    (hmatch : w.frames.Match env outer)
    (hfree : body.isCaptureFree (.ofFunction params body :: outer) = true)
    (hreceiver : receiver.Stands p w target) (hargs : Word.StandAll p w args values) :
    Simulates m.function.name line (f.evaluateTraced call params body env target values) st
      (m.Delivers p w (pc + 2) stack) m₁ := by
  obtain ⟨code, hg⟩ := hemits.code?_isSome
  rw [← hname] at hemits
  obtain ⟨instrs, bodyLine, fragment, rfl, hemitted⟩ := Program.emitted_of_emits hemits hg
  have hslots : code.arity ≤ code.slots := by
    rw [hemitted.arity, hemitted.slots]
    exact Shape.arity_le_size ..
  have hsize : m₁.stack.size = stack.size + 2 + args.size := by
    rw [h.stack, size_window]
  have hbp : m₁.bp ≤ m₁.stack.size := by
    rw [h.bp]
    omega
  unfold Function.evaluateTraced
  by_cases hlength : values.length = params.length
  · rw [if_neg (not_not_intro hlength)]
    have harity : code.arity = args.size + 1 := by rw [hemitted.arity, ← hlength, hargs.size]
    have hfits : m₁.stack.size ≤ stack.size + 1 + code.slots := by omega
    have hactivate : Traced.lift (Run.activate
          (.activation target params values (Block.mk instrs bodyLine).declared)) st =
        .ok w.frames.cells.size { st with frames := (w.frames.add
          (.activation target params values (Block.mk instrs bodyLine).declared)).2 } := by
      rw [← h.relates.frames]
      rfl
    refine .bind_ok hactivate (.bind_ok rfl (.after (h.enters hcode hword hg hslots hbp harity) ?_))
    rintro m₂ ⟨caller, dict, hgrows, hcaller, h₂⟩
    have hdict : w.Extends none { w with dict } := .withDict w hgrows
    have hentered := h.stack ▸ h₂
    have hready := hentered.ready hemitted (hreceiver.mono hdict) (hargs.mono hdict)
      (h.undefined.mono hdict) hlength hmatch
      (st.log.add (.closureCall f.name values.length st.depth)) st.depth
    obtain ⟨rfl, rfl⟩ : m₂.function = g ∧ m₂.code = code := ⟨h₂.function, h₂.code⟩
    have hbody := hemitted.answers hcall hfree hready
    rw [hname] at hbody
    exact .inFunction <| hbody.followed fun _ _ _ hanswers ↦
      h.leaves hcode hbp hfits hgrows hcaller h₂ hanswers
  · rw [if_pos hlength]
    have hvalue : m₁.run.dict.value callee = .ok (.function g) := by
      rw [h.relates.dict]
      exact hword
    refine .of_failed rfl (.next <| .callCompiled (lenient_failsAlike _ _ _ _ _) h.sound
      (h.contains hcode) h.stack hvalue hg hslots hbp (fun harity ↦ ?_) fun _ ↦ ?_)
    · rw [hemitted.arity, hargs.size] at harity
      exact absurd (Nat.succ.inj harity).symm hlength
    · refine h.fails _ ?_ rfl h.relates.output
      rw [hname, hemitted.arity, hargs.size]
      rfl

/-- Calls are simulated, however many may nest on the tree. -/
theorem Function.callTraced_simulated (p : Program) (steps : Nat) :
    TracedCaller.Simulated p (Function.callTraced steps) := by
  -- On the tree a body is run with a smaller budget; the machine needs none in the induction, since
  -- where the budget of the tree is used up nothing is said about it.
  induction steps with
  | zero =>
    intro m m₁ w pc stack args callee receiver st line rest f target values _ _ _ _ _ _
    trivial
  | succ steps ih =>
    intro m m₁ w pc stack args callee receiver st line rest f target values h hcode hframe hcallee
      hreceiver hargs
    cases hcallee with
    | basic hbasic _ => exact hbasic.elim
    | @function g _ hword hg =>
      cases hg with
      | builtin op =>
        have hcallee : callee.Stands p w (.function op.function) := .function hword (.builtin op)
        have hcalls : Function.callTraced (steps + 1) op.function target values =
            if (Native.builtin op).comparesFunctions values then Traced.halt .compared
            else Traced.lift ((Native.builtin op).call target values) := rfl
        rw [hcalls]
        by_cases hwatched : (Native.builtin op).comparesFunctions values = true
        · rw [if_pos hwatched]
          trivial
        · rw [if_neg hwatched]
          exact h.callBuiltin hcode hcallee hargs (Bool.eq_false_iff.mpr hwatched) target
      | @closure _ _ params body env outer hbody hid hdefines hemits hmatch hfree =>
        have hname : g.name = f.name :=
          Function.Renders.name_eq (.closure hbody hid hdefines hemits hmatch hfree)
        have hcalls : Function.callTraced (steps + 1) f target values = Traced.insideCall
            (f.evaluateTraced (Function.callTraced steps) params body env target values) := by
          rw [Function.callTraced]
          simp only [hbody]
        rw [hcalls]
        refine .insideCall (fun depth ↦ (h.tree (h.relates.withDepth depth)).callClosure ih hcode
          hframe hword hname hemits hmatch hfree hreceiver hargs) ?_
        rintro value st' m' depth ⟨w', word, hw, hmeets, hresult⟩
        exact ⟨w', word, hw, hmeets.tree (hmeets.relates.withDepth depth), hresult⟩

end TandemScript
