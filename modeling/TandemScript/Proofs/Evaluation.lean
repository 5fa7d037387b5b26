import TandemScript.Proofs.Progress
import TandemScript.Proofs.Simulation

/-!
# Emitted code does what its node does

A machine that runs the code of a node and the evaluator at that node come to the same, given that
calls do. The variables of the function are in the window of the machine on one side, and in an
activation on the other.
-/

namespace TandemScript

variable {p : Program} {w w' : World} {m m₁ m₂ : Machine} {own : FrameId} {env : Env} {site : Site}
  {pc pc' : Nat} {stack stack' : Array Word} {st st' : RunState} {line : UInt32} {word : Word}
  {value : Value} {name : String} {slot : Nat}

/-! ## Variables -/

/-- The slots of a site, in a window of the stack, hold the variables of an activation. -/
structure Activation (p : Program) (w : World) (own : FrameId) (env : Env) (site : Site) (bp : Nat)
    (stack : Array Word) : Prop where
  frames : w.frames.Match (own :: env) site.scopes
  slots : ∀ name slot value, site.slot? name = some slot → w.frames.getIn? own name = some value →
    ∃ word, stack[bp + slot]? = some word ∧ word.Stands p w value

namespace Activation

variable {bp : Nat}

/-- The innermost scope of the site is that of the activation. -/
theorem exists_scope (h : Activation p w own env site bp stack) :
    ∃ scope outer, site.scopes = scope :: outer ∧ w.frames.Match (own :: env) (scope :: outer) := by
  have hframes := h.frames
  cases hscopes : site.scopes with
  | nil =>
    rw [hscopes] at hframes
    exact hframes.elim
  | cons scope outer => exact ⟨scope, outer, rfl, hscopes ▸ hframes⟩

theorem own_has (h : Activation p w own env site bp stack) :
    ∃ bindings, w.frames.cells[own]? = some bindings ∧
      ∀ name, (bindings.get? name).isSome = (site.slot? name).isSome := by
  obtain ⟨scope, outer, hscopes, hframes⟩ := h.exists_scope
  unfold Site.slot?
  rw [hscopes]
  exact hframes.1

theorem mono (h : Activation p w own env site bp stack) (hw : w.Extends none w')
    (hstack : ∀ name slot, site.slot? name = some slot →
      stack'[bp + slot]? = stack[bp + slot]?) : Activation p w' own env site bp stack' where
  frames := h.frames.mono hw.frames
  slots name slot value hslot hvalue := by
    obtain ⟨bindings, hbindings, -⟩ := h.own_has
    obtain ⟨_, hbindings', hsame, -⟩ := hw.frames own bindings hbindings
    obtain rfl := hsame (by simp)
    rw [Frames.getIn?_of_cells hbindings', ← Frames.getIn?_of_cells hbindings] at hvalue
    obtain ⟨word, hcell, hword⟩ := h.slots name slot value hslot hvalue
    exact ⟨word, (hstack name slot hslot).trans hcell, hword.mono hw⟩

/-- A variable of the function is in its slot. -/
theorem read (h : Activation p w own env site bp stack) (hslot : site.slot? name = some slot) :
    ∃ value word, w.frames.lookup? (own :: env) name = some value ∧
      stack[bp + slot]? = some word ∧ word.Stands p w value := by
  obtain ⟨bindings, hbindings, hnames⟩ := h.own_has
  have hname : (bindings.get? name).isSome = true := by
    rw [hnames, hslot]
    rfl
  obtain ⟨value, hvalue⟩ := Option.isSome_iff_exists.mp hname
  obtain ⟨word, hcell, hword⟩ := h.slots name slot value hslot
    ((Frames.getIn?_of_cells hbindings name).trans hvalue)
  exact ⟨value, word, (Frames.lookup?_own hbindings hname env).trans hvalue, hcell, hword⟩

/-- A name that is no variable of the function is none of the functions around it, either. -/
theorem lookup?_eq_none (h : Activation p w own env site bp stack)
    (hslot : site.slot? name = none) (hfree : Shape.isOwnOrGlobal site.scopes name = true) :
    w.frames.lookup? (own :: env) name = none := by
  obtain ⟨scope, outer, hscopes, hframes⟩ := h.exists_scope
  unfold Site.slot? at hslot
  rw [hscopes] at hslot hfree
  exact Frames.lookup?_eq_none hframes
    (List.forall_mem_cons.mpr ⟨hslot, Shape.slot?_eq_none_of_own hfree hslot⟩)

theorem slot_inj (h : Activation p w own env site bp stack) {other : String}
    (hslot : site.slot? name = some slot) (hother : site.slot? other = some slot) :
    name = other := by
  obtain ⟨scope, outer, hscopes, -⟩ := h.exists_scope
  unfold Site.slot? at hslot hother
  rw [hscopes] at hslot hother
  exact Shape.slot?_inj hslot hother

/-- A variable is written on both sides. -/
theorem write (h : Activation p w own env site bp stack) (hslot : site.slot? name = some slot)
    (hcell : bp + slot < stack.size) (hword : word.Stands p w value) (declares : Bool) :
    (if declares then (own :: env).head? else w.frames.owner? name (own :: env)) = some own ∧
      w.frames.Keeps (some own) (w.frames.bind own name value) ∧
      Activation p { w with frames := w.frames.bind own name value } own env site bp
        (stack.setIfInBounds (bp + slot) word) := by
  obtain ⟨bindings, hbindings, hnames⟩ := h.own_has
  have hname : (bindings.get? name).isSome = true := by
    rw [hnames, hslot]
    rfl
  have hkeeps := Frames.Keeps.bind hbindings hname value
  have hw : w.Extends (some own) { w with frames := w.frames.bind own name value } :=
    .withFrames w hkeeps
  refine ⟨?_, hkeeps, h.frames.mono hkeeps, fun other slot' found hslot' hfound ↦ ?_⟩
  · cases declares
    · exact Frames.owner?_own hbindings hname env
    · rfl
  · rw [Frames.getIn?_of_cells (Frames.bind_cells hbindings name value), Bindings.get?_set]
      at hfound
    by_cases hother : name = other
    · subst hother
      obtain rfl := Option.some.inj (hslot.symm.trans hslot')
      rw [if_pos rfl] at hfound
      obtain rfl := Option.some.inj hfound
      exact ⟨word, Array.getElem?_setIfInBounds_self_of_lt hcell, hword.mono hw⟩
    · rw [if_neg hother, ← Frames.getIn?_of_cells hbindings] at hfound
      obtain ⟨old, hold, hstands⟩ := h.slots other slot' found hslot' hfound
      refine ⟨old, ?_, hstands.mono hw⟩
      rw [Array.getElem?_setIfInBounds_ne ?_]
      · exact hold
      · intro heq
        obtain rfl := Nat.add_left_cancel heq
        exact hother (h.slot_inj hslot hslot')

end Activation

/-! ## Positions in a function -/

/-- The machine is at a position of the code of a site, with the variables of an activation. -/
structure Machine.Ready (p : Program) (m : Machine) (own : FrameId) (env : Env) (site : Site)
    (w : World) (pc : Nat) (stack : Array Word) (st : RunState) (m' : Machine) : Prop where
  meets : m.Meets p w pc stack st m'
  frame : m.bp + m.code.slots + linkCells ≤ stack.size
  slots : m.code.HasSlotsOf site
  activation : Activation p w own env site m.bp stack

namespace Machine.Ready

theorem slot_lt (h : m.Ready p own env site w pc stack st m₁)
    (hslot : site.slot? name = some slot) : m.bp + slot < stack.size := by
  have hframe := h.frame
  have hlt := h.slots name slot hslot
  omega

/-- The machine goes on with the same cells below others. -/
theorem next (h : m.Ready p own env site w pc stack st m₁) (hw : w.Extends none w')
    (h' : m.Meets p w' pc' stack' st' m₂) (hsize : stack.size ≤ stack'.size)
    (hsame : ∀ index < stack.size, stack'[index]? = stack[index]?) :
    m.Ready p own env site w' pc' stack' st' m₂ where
  meets := h'
  frame := Nat.le_trans h.frame hsize
  slots := h.slots
  activation := h.activation.mono hw fun _ _ hslot ↦ hsame _ (h.slot_lt hslot)

theorem same (h : m.Ready p own env site w pc stack st m₁) (hw : w.Extends none w')
    (h' : m.Meets p w' pc' stack st' m₂) : m.Ready p own env site w' pc' stack st' m₂ :=
  h.next hw h' (Nat.le_refl _) fun _ _ ↦ rfl

theorem push (h : m.Ready p own env site w pc stack st m₁) (hw : w.Extends none w')
    (h' : m.Meets p w' pc' (stack.push word) st' m₂) :
    m.Ready p own env site w' pc' (stack.push word) st' m₂ :=
  h.next hw h' (by rw [Array.size_push]; exact Nat.le_succ _) fun index hindex ↦ by
    rw [Array.getElem?_push_lt hindex, Array.getElem?_eq_getElem hindex]

theorem push₂ {second : Word} (h : m.Ready p own env site w pc stack st m₁)
    (hw : w.Extends none w') (h' : m.Meets p w' pc' ((stack.push word).push second) st' m₂) :
    m.Ready p own env site w' pc' ((stack.push word).push second) st' m₂ :=
  h.next hw h' (by simp only [Array.size_push]; omega) fun index hindex ↦ by
    rw [Array.getElem?_push, if_neg (by rw [Array.size_push]; omega), Array.getElem?_push,
      if_neg (Nat.ne_of_lt hindex)]

end Machine.Ready

/-- Beyond a position the machine has words for some values on top of its stack. -/
def Machine.DeliversAll (p : Program) (m : Machine) (w : World) (pc : Nat) (stack : Array Word)
    (values : List Value) (st : RunState) (m' : Machine) : Prop :=
  ∃ w' words, w.Extends none w' ∧ m.Meets p w' pc (stack ++ words) st m' ∧
    Word.StandAll p w' words values

/-- The machine is at a return, with the word of the result on top of the stack. -/
def Machine.Answers (p : Program) (m : Machine) (own : FrameId) (w : World) (stack : Array Word)
    (value : Value) (st : RunState) (m' : Machine) : Prop :=
  ∃ w' stack' pc word line rest, w.Extends (some own) w' ∧
    SameBut m.bp m.code.slots stack stack' ∧ m.Meets p w' pc (stack'.push word) st m' ∧
      word.Stands p w' value ∧ m.code.Contains pc ((.ret, line) :: rest)

/-- The machine has done with instructions: it is behind them if there is no result, and at a return
if there is one. -/
def Machine.Finishes (p : Program) (m : Machine) (own : FrameId) (env : Env) (site : Site)
    (w : World) (pc : Nat) (stack : Array Word) (result : Option Value) (st : RunState)
    (m' : Machine) : Prop :=
  match result with
  | some value => m.Answers p own w stack value st m'
  | none => ∃ w' stack', w.Extends (some own) w' ∧ SameBut m.bp m.code.slots stack stack' ∧
    m.Ready p own env site w' pc stack' st m'

theorem Machine.Answers.of_earlier (hw : w.Extends (some own) w')
    (hsame : SameBut m.bp m.code.slots stack stack')
    (h : m.Answers p own w' stack' value st m₁) : m.Answers p own w stack value st m₁ := by
  obtain ⟨w'', stack'', pc, word, line, rest, hw', hsame', hmeets, hword, hret⟩ := h
  exact ⟨w'', stack'', pc, word, line, rest, hw.trans hw', hsame.trans hsame', hmeets, hword, hret⟩

theorem Machine.Finishes.of_earlier {result : Option Value} (hw : w.Extends (some own) w')
    (hsame : SameBut m.bp m.code.slots stack stack')
    (h : m.Finishes p own env site w' pc stack' result st m₁) :
    m.Finishes p own env site w pc stack result st m₁ := by
  cases result with
  | some value => exact Machine.Answers.of_earlier hw hsame h
  | none =>
    obtain ⟨w'', stack'', hw', hsame', hready⟩ := h
    exact ⟨w'', stack'', hw.trans hw', hsame.trans hsame', hready⟩

/-- A variable is written in its slot by the machine, and in its activation by the evaluator. -/
theorem Machine.Ready.write (h : m.Ready p own env site w pc stack st m₁)
    (hw : w.Extends none w') (hslot : site.slot? name = some slot) (hword : word.Stands p w' value)
    (declares : Bool) (h' : m.Meets p w' pc' (stack.setIfInBounds (m.bp + slot) word) st' m₂) :
    ∃ st'', Traced.lift (Run.writeVar (own :: env) name value declares) st' = .ok () st'' ∧
      m.Finishes p own env site w pc' stack none st'' m₂ := by
  have hactivation : Activation p w' own env site m.bp stack := h.activation.mono hw fun _ _ _ ↦ rfl
  obtain ⟨hwritten, hkeeps, hactivation'⟩ :=
    hactivation.write hslot (h.slot_lt hslot) hword declares
  refine ⟨{ st' with frames := st'.frames.bind own name value }, ?_, _, _,
    hw.weaken.trans (.withFrames w' hkeeps), .set stack (h.slots _ _ hslot) word, ?_, ?_, h.slots,
    hactivation'⟩
  · unfold Traced.lift
    simp only [Run.writeVar_apply, h'.relates.frames, hwritten]
  · rw [h'.relates.frames]
    exact { h' with relates := h'.relates.withFrames hkeeps }
  · rw [Array.size_setIfInBounds]
    exact h.frame

/-- Calls of functions that the words of a window stand for are simulated. -/
def TracedCaller.Simulated (p : Program) (call : TracedCaller) : Prop :=
  ∀ ⦃m m₁ : Machine⦄ ⦃w : World⦄ ⦃pc : Nat⦄ ⦃stack args : Array Word⦄ ⦃callee receiver : Word⦄
    ⦃st : RunState⦄ ⦃line : UInt32⦄ ⦃rest : Fragment⦄ ⦃f : Function⦄ ⦃target : Value⦄
    ⦃values : List Value⦄,
    m.Meets p w pc (window stack callee receiver args) st m₁ →
    m.code.Contains pc ((.call (.ofNat args.size), line) :: rest) →
    m.bp + m.code.slots + linkCells ≤ stack.size → callee.Stands p w (.function f) →
    receiver.Stands p w target → Word.StandAll p w args values →
    Simulates m.function.name line (call f target values) st (m.Delivers p w (pc + 2) stack) m₁

/-! ## Object literals -/

/-- The values of the fields of an object literal, without those of keys that are given again. -/
def keptValues (keys : List String) (values : List Value) : List Value :=
  (values.zip (keepLast keys)).filterMap fun (value, keep) ↦ if keep then some value else none

theorem keepLast_cons (key : String) (keys : List String) :
    keepLast (key :: keys) = (!keys.contains key) :: keepLast keys := rfl

theorem keptValues_dropped {key : String} {keys : List String} (h : keys.contains key = true)
    (value : Value) (values : List Value) :
    keptValues (key :: keys) (value :: values) = keptValues keys values := by
  unfold keptValues
  rw [keepLast_cons, List.zip_cons_cons, List.filterMap_cons, h]
  rfl

theorem keptValues_kept {key : String} {keys : List String} (h : keys.contains key = false)
    (value : Value) (values : List Value) :
    keptValues (key :: keys) (value :: values) = value :: keptValues keys values := by
  unfold keptValues
  rw [keepLast_cons, List.zip_cons_cons, List.filterMap_cons, h]
  rfl

theorem length_keptValues {keys : List String} {values : List Value}
    (h : values.length = keys.length) :
    (keptValues keys values).length = (Shape.ofKeys keys).size := by
  induction keys generalizing values with
  | nil =>
    rw [List.length_eq_zero_iff.mp h]
    rfl
  | cons key keys ih =>
    cases values with
    | nil => cases h
    | cons value values =>
      have hrest := ih (Nat.succ.inj h)
      by_cases hkey : keys.contains key = true
      · rw [keptValues_dropped hkey, Shape.size_ofKeys_dropped hkey, hrest]
      · have hkey := Bool.eq_false_iff.mpr hkey
        rw [keptValues_kept hkey, Shape.size_ofKeys_kept hkey, List.length_cons, hrest]

/-! ## Nodes -/

section Nodes

variable {call : TracedCaller}

theorem Machine.Meets.callValue (hcall : call.Simulated p) {args : Array Word}
    {callee receiver : Word} {count : Nat} {rest : Fragment} {target : Value} {values : List Value}
    (h : m.Meets p w pc (window stack callee receiver args) st m₁)
    (hcode : m.code.Contains pc ((.call (.ofNat count), line) :: rest)) (hcount : args.size = count)
    (hframe : m.bp + m.code.slots + linkCells ≤ stack.size) (hcallee : callee.Stands p w value)
    (hreceiver : receiver.Stands p w target) (hargs : Word.StandAll p w args values) :
    Simulates m.function.name line (Traced.callValue call value target values) st
      (m.Delivers p w (pc + 2) stack) m₁ := by
  subst hcount
  by_cases hfunction : ∃ f, value = .function f
  · obtain ⟨f, rfl⟩ := hfunction
    exact hcall h hcode hframe hcallee hreceiver hargs
  · exact h.callOther hcode hcallee (not_exists.mp hfunction) call target

/-- Where the arguments are on top of the receiver and the callee, the call is simulated. -/
theorem Machine.DeliversAll.callValue (hcall : call.Simulated p) {callee receiver : Word}
    {count : Nat} {rest : Fragment} {target : Value} {values : List Value}
    (h : m.DeliversAll p w pc ((stack.push callee).push receiver) values st m₁)
    (hlength : values.length = count)
    (hcode : m.code.Contains pc ((.call (.ofNat count), line) :: rest))
    (hframe : m.bp + m.code.slots + linkCells ≤ stack.size) (hcallee : callee.Stands p w value)
    (hreceiver : receiver.Stands p w target) :
    Simulates m.function.name line (Traced.callValue call value target values) st
      (m.Delivers p w (pc + 2) stack) m₁ := by
  obtain ⟨w', args, hw', hmeets, hargs⟩ := h
  refine (hmeets.callValue hcall hcode (hargs.size.trans hlength) hframe (hcallee.mono hw')
    (hreceiver.mono hw') hargs).mono fun _ _ _ h ↦ ?_
  exact h.of_extends hw'

/-- The value of a function literal is compiled from it. -/
theorem Activation.closure_stands (hact : Activation p w own env site m.bp stack)
    (hnextId : Builtin.all.length ≤ st.nextId) (hgrows : p.pool.dict.GrowsTo w.dict)
    {params : List String} {body : Block} {g : Function}
    (hemits : body.EmitsFunction p.pool.dict site.scopes name params g)
    (hword : p.pool.dict.value word = .ok (.function g))
    (hfree : body.isCaptureFree (.ofFunction params body :: site.scopes) = true) :
    word.Stands p w (.function ⟨st.nextId, name, .closure params body (own :: env)⟩) := by
  obtain ⟨index, -, hget⟩ := Dictionary.value_eq_ok.mp hword
  exact .function (hgrows.value hword)
    (.closure rfl hnextId (.inr ⟨index, hget⟩) hemits hact.frames hfree)

-- The recursion is on the derivations, as for progress. A value leaves the activation as it was,
-- so that the site stays ready under the words that are pushed; an instruction may change it.
mutual

theorem Expr.Emits.evaluates {e : Expr} {site : Site} {start : Nat} {line outer : UInt32}
    {code : Fragment} {stack : Array Word} {w : World} {st : RunState} {m₁ : Machine}
    (hemits : e.Emits p.pool.dict site start line code) (hcall : call.Simulated p)
    (hline : line = e.lineWithin outer) (he : e.isInstruction = false)
    (hfree : e.isCaptureFree site.scopes = true) (hcode : m.code.Contains start code)
    (h : m.Ready p own env site w start stack st m₁) :
    Simulates m.function.name outer (e.evalTraced call (own :: env)) st
      (m.Delivers p w (start + code.size) stack) m₁ := by
  obtain ⟨_, _⟩ := site
  cases hemits with
  | @literal _ _ _ value _ word hdenotes =>
    have hdenotes' := hdenotes.mono h.meets.grows
    cases value with
    | int n => exact .atNode hline (.of_ok rfl (h.meets.const hcode (.basic trivial hdenotes')))
    | str s => exact .atNode hline (.of_ok rfl (h.meets.const hcode (.basic trivial hdenotes')))
  | @load _ _ _ name _ slot hslot =>
    obtain ⟨value, word, hvalue, hcell, hword⟩ := h.activation.read hslot
    have hread : Traced.lift (Run.readVar (own :: env) name) st = .ok value st := by
      unfold Traced.lift Run.readVar
      rw [h.meets.relates.frames, hvalue]
    exact .atNode hline (.of_ok hread (h.meets.load hcode (h.slots _ _ hslot)
      (Nat.le_trans (Nat.le_add_right _ _) h.frame) hcell hword))
  | @lookup _ _ _ name _ word hslot hname =>
    have hnone := h.activation.lookup?_eq_none hslot hfree
    have hread : Traced.lift (Run.readVar (own :: env) name) st = .ok (st.global name) st := by
      unfold Traced.lift Run.readVar
      rw [h.meets.relates.frames, hnone]
    exact .atNode hline (.of_ok hread (h.meets.lookup hcode hname))
  | lambda hbody hword =>
    have hnextId := h.meets.relates.nextId
    have hstands := h.activation.closure_stands hnextId h.meets.grows hbody hword hfree
    have hmeets := h.meets.tree h.meets.relates.withFreshId
    exact .atNode hline (.of_ok rfl (hmeets.const hcode hstands))
  | named hbody hword hname =>
    have hnextId := h.meets.relates.nextId
    have hstands := h.activation.closure_stands hnextId h.meets.grows hbody hword hfree
    have hmeets := h.meets.tree h.meets.relates.withFreshId
    refine .atNode hline (.of_ok rfl ((hmeets.const hcode hstands).trans ?_))
    rintro m₂ ⟨w₁, word, hw₁, h₂, hword⟩
    refine (h₂.dup (Code.Contains.right (a := [_]) hcode)).trans fun m₃ h₃ ↦ ?_
    refine (h₃.register (Code.Contains.right (a := [_, _]) hcode) hname hword).mono fun m₄ h₄ ↦ ?_
    exact ⟨w₁, word, hw₁, h₄, hword⟩
  | @call _ _ _ callee args _ target operands hcallee htarget hargs =>
    simp only [Expr.isCaptureFree, Bool.and_eq_true] at hfree
    rw [List.append_assoc, List.append_assoc] at hcode
    refine .atNode hline (.bind (htarget.evaluates hcall rfl hcallee hfree.1 hcode.left h) ?_)
    rintro value st₁ m₂ ⟨w₁, function, hw₁, h₂, hfunction⟩
    have hready := h.push hw₁ h₂
    refine .after (h₂.const hcode.right.left h₂.undefined) ?_
    rintro m₃ ⟨w₂, receiver, hw₂, h₃, hreceiver⟩
    have hready' := hready.push hw₂ h₃
    refine .bind (hargs.evaluate hcall hfree.2 hcode.right.right.left hready') ?_
    rintro values st₂ m₄ ⟨hlength, h₄⟩
    refine (h₄.callValue hcall hlength hcode.right.right.right h.frame (hfunction.mono hw₂)
      hreceiver).mono fun _ _ _ h ↦ ?_
    simp only [Fragment.size_append, Nat.add_assoc] at h ⊢
    exact h.of_extends (hw₁.trans hw₂)
  | object hfields hshape =>
    refine .atNode hline (.bind (hfields.evaluate hcall hfree hcode.left h) ?_)
    rintro values st₁ m₂ ⟨hlength, w₁, words, hw₁, h₂, hwords⟩
    have hsize := length_keptValues (hlength.trans (List.length_map Prod.fst).symm)
    refine .of_ok rfl ((h₂.new hcode.right hshape hwords hsize).mono fun _ h ↦ ?_)
    simp only [Fragment.size_append, Nat.add_assoc] at h ⊢
    exact h.of_extends hw₁
  | field hreceiver htarget hname =>
    refine .atNode hline (.bind (htarget.evaluates hcall rfl hreceiver hfree hcode.left h) ?_)
    rintro value st₁ m₂ ⟨w₁, word, hw₁, h₂, hword⟩
    refine (h₂.get hcode.right hname hword).mono fun _ _ _ h ↦ ?_
    simp only [Fragment.size_append, Nat.add_assoc] at h ⊢
    exact h.of_extends hw₁
  | @method _ _ _ receiver name args _ target operands _ hreceiver htarget hname hargs =>
    simp only [Expr.isCaptureFree, Bool.and_eq_true] at hfree
    rw [List.append_assoc, List.append_assoc] at hcode
    have hlookup := hcode.right
    refine .atNode hline (.bind (htarget.evaluates hcall rfl hreceiver hfree.1 hcode.left h) ?_)
    rintro value st₁ m₂ ⟨w₁, word, hw₁, h₂, hword⟩
    refine .after (h₂.dup hlookup) fun m₃ h₃ ↦ ?_
    refine .bind (h₃.get (Code.Contains.right (a := [_]) hlookup) hname hword) ?_
    rintro method st₂ m₄ ⟨w₂, function, hw₂, h₄, hfunction⟩
    refine .after (h₄.swap (Code.Contains.right (a := [_, _]) hlookup)) fun m₅ h₅ ↦ ?_
    have hready := h.push₂ (hw₁.trans hw₂) h₅
    refine .bind (hargs.evaluate hcall hfree.2 hcode.right.right.left hready) ?_
    rintro values st₃ m₆ ⟨hlength, h₆⟩
    refine (h₆.callValue hcall hlength hcode.right.right.right h.frame hfunction
      (hword.mono hw₂)).mono fun _ _ _ h ↦ ?_
    simp only [Fragment.size_append, Nat.add_assoc] at h ⊢
    exact h.of_extends (hw₁.trans hw₂)
  | block _ | assign _ _ _ | ret _ _ | cond _ _ _ _ _ _ | setField _ _ _ _ _ => cases he

theorem EmitsArgs.evaluate {es : List Expr} {site : Site} {start : Nat} {line : UInt32}
    {code : Fragment} {stack : Array Word} {w : World} {st : RunState} {m₁ : Machine}
    (hemits : EmitsArgs p.pool.dict site start line es code) (hcall : call.Simulated p)
    (hfree : listIsCaptureFree site.scopes es = true) (hcode : m.code.Contains start code)
    (h : m.Ready p own env site w start stack st m₁) :
    Simulates m.function.name line (evalListTraced call (own :: env) es) st
      (fun values st' m' ↦ values.length = es.length ∧
        m.DeliversAll p w (start + code.size) stack values st' m') m₁ := by
  obtain ⟨_, _⟩ := site
  cases hemits with
  | nil =>
    exact .pure ⟨rfl, w, #[], .refl _ w, by rw [Array.append_empty]; exact h.meets, .nil⟩
  | cons he hcode' hrest =>
    simp only [listIsCaptureFree, Bool.and_eq_true] at hfree
    refine .bind (hcode'.evaluates hcall rfl he hfree.1 hcode.left h) ?_
    rintro value st₁ m₂ ⟨w₁, word, hw₁, h₂, hword⟩
    refine .bind (hrest.evaluate hcall hfree.2 hcode.right (h.push hw₁ h₂)) ?_
    rintro values st₂ m₃ ⟨hlength, w₂, words, hw₂, h₃, hwords⟩
    refine .pure ⟨congrArg (· + 1) hlength, w₂, #[word] ++ words, hw₁.trans hw₂, ?_,
      .cons (hword.mono hw₂) hwords⟩
    rw [← Array.append_assoc, Array.append_singleton, Fragment.size_append, ← Nat.add_assoc]
    exact h₃

theorem EmitsFields.evaluate {fields : List (String × Expr)} {site : Site} {start : Nat}
    {line : UInt32} {code : Fragment} {stack : Array Word} {w : World} {st : RunState}
    {m₁ : Machine} (hemits : EmitsFields p.pool.dict site start line fields code)
    (hcall : call.Simulated p) (hfree : fieldsAreCaptureFree site.scopes fields = true)
    (hcode : m.code.Contains start code) (h : m.Ready p own env site w start stack st m₁) :
    Simulates m.function.name line (evalFieldsTraced call (own :: env) fields) st
      (fun values st' m' ↦ values.length = fields.length ∧
        m.DeliversAll p w (start + code.size) stack (keptValues (fields.map Prod.fst) values) st'
          m') m₁ := by
  obtain ⟨_, _⟩ := site
  cases hemits with
  | nil =>
    exact .pure ⟨rfl, w, #[], .refl _ w, by rw [Array.append_empty]; exact h.meets, .nil⟩
  | dropped hkey he hcode' hrest =>
    simp only [fieldsAreCaptureFree, Bool.and_eq_true] at hfree
    rw [List.append_assoc] at hcode
    refine .bind (hcode'.evaluates hcall rfl he hfree.1 hcode.left h) ?_
    rintro value st₁ m₂ ⟨w₁, word, hw₁, h₂, hword⟩
    refine .after (h₂.pop hcode.right) fun m₃ h₃ ↦ ?_
    refine .bind (hrest.evaluate hcall hfree.2 hcode.right.right (h.same hw₁ h₃)) ?_
    rintro values st₂ m₄ ⟨hlength, w₂, words, hw₂, h₄, hwords⟩
    refine .pure ⟨congrArg (· + 1) hlength, w₂, words, hw₁.trans hw₂, ?_, ?_⟩
    · simp only [Fragment.size_append, Nat.add_assoc] at h₄ ⊢
      exact h₄
    · rw [List.map_cons, keptValues_dropped hkey]
      exact hwords
  | kept hkey he hcode' hrest =>
    simp only [fieldsAreCaptureFree, Bool.and_eq_true] at hfree
    refine .bind (hcode'.evaluates hcall rfl he hfree.1 hcode.left h) ?_
    rintro value st₁ m₂ ⟨w₁, word, hw₁, h₂, hword⟩
    refine .bind (hrest.evaluate hcall hfree.2 hcode.right (h.push hw₁ h₂)) ?_
    rintro values st₂ m₃ ⟨hlength, w₂, words, hw₂, h₃, hwords⟩
    refine .pure ⟨congrArg (· + 1) hlength, w₂, #[word] ++ words, hw₁.trans hw₂, ?_, ?_⟩
    · rw [← Array.append_assoc, Array.append_singleton, Fragment.size_append, ← Nat.add_assoc]
      exact h₃
    · rw [List.map_cons, keptValues_kept hkey]
      exact .cons (hword.mono hw₂) hwords

end

mutual

theorem Expr.Emits.executes {e : Expr} {site : Site} {start : Nat} {line outer : UInt32}
    {code : Fragment} {stack : Array Word} {w : World} {st : RunState} {m₁ : Machine}
    (hemits : e.Emits p.pool.dict site start line code) (hcall : call.Simulated p)
    (hline : line = e.lineWithin outer) (he : e.isInstruction = true)
    (hfree : e.isCaptureFree site.scopes = true) (hcode : m.code.Contains start code)
    (h : m.Ready p own env site w start stack st m₁) :
    Simulates m.function.name outer (e.execTraced call (own :: env)) st
      (m.Finishes p own env site w (start + code.size) stack) m₁ := by
  obtain ⟨_, _⟩ := site
  cases hemits with
  | block hbody => exact .atNode hline (hbody.executes hcall hfree hcode h)
  | @assign _ _ _ name _ declares _ slot _ hslot hvalue hemits =>
    refine .atNode hline (.bind (hemits.evaluates hcall rfl hvalue hfree hcode.left h) ?_)
    rintro value st₁ m₂ ⟨w₁, word, hw₁, h₂, hword⟩
    refine .after (h₂.store hcode.right (h.slots _ _ hslot)
      (Nat.le_trans (Nat.le_add_right _ _) h.frame)) fun m₃ h₃ ↦ ?_
    obtain ⟨st₂, hwrite, hfinishes⟩ := h.write hw₁ hslot hword declares h₃
    refine .bind_ok hwrite (.pure ?_)
    simp only [Fragment.size_append, Nat.add_assoc] at hfinishes ⊢
    exact hfinishes
  | setField hreceiver htarget hvalue hemits hname =>
    simp only [Expr.isCaptureFree, Bool.and_eq_true] at hfree
    rw [List.append_assoc] at hcode
    refine .atNode hline (.bind (htarget.evaluates hcall rfl hreceiver hfree.1 hcode.left h) ?_)
    rintro target st₁ m₂ ⟨w₁, receiver, hw₁, h₂, hreceiver⟩
    refine .bind (hemits.evaluates hcall rfl hvalue hfree.2 hcode.right.left (h.push hw₁ h₂)) ?_
    rintro value st₂ m₃ ⟨w₂, word, hw₂, h₃, hword⟩
    refine .bind (h₃.put hcode.right.right hname hword (hreceiver.mono hw₂)) fun _ st₃ m₄ h₄ ↦ ?_
    have hw := hw₁.trans hw₂
    refine .pure ⟨w₂, stack, hw.weaken, .refl stack, h.same hw ?_⟩
    simp only [Fragment.size_append, Nat.add_assoc] at h₄ ⊢
    exact h₄
  | @cond _ _ _ _ onTrue onFalse _ decision whenTrue whenFalse _ _ htest hdecision hTrue hatFalse
      hFalse hafter =>
    subst hatFalse hafter
    simp only [Expr.isCaptureFree, Bool.and_eq_true] at hfree
    simp only [List.append_assoc] at hcode
    have hjump := hcode.right
    have hgoto := hjump.right.right
    have hend := hgoto.right.le_size
    refine .atNode hline (.bind (hdecision.evaluates hcall rfl htest hfree.1.1 hcode.left h) ?_)
    rintro value st₁ m₂ ⟨w₁, word, hw₁, h₂, hword⟩
    refine .after (h₂.jumpIfFalse hjump (Nat.le_trans (Nat.le_add_right _ _) hend) hword) ?_
    intro m₃ h₃
    have hready := h.same hw₁ h₃
    by_cases hvalue : value.isFalse = true
    · rw [if_pos hvalue] at hready ⊢
      refine (hFalse.executes hcall hfree.2 hgoto.right hready).mono fun _ _ _ h ↦ ?_
      simp only [Fragment.size_append, Nat.add_assoc] at h ⊢
      exact h.of_earlier hw₁.weaken (.refl stack)
    · rw [if_neg hvalue] at hready ⊢
      refine (hTrue.executes hcall hfree.1.2 hjump.right.left hready).followed ?_
      -- A branch that returned is at a return already, and does not get to the jump behind it.
      rintro (_ | result) st₂ m₄ hfinishes
      · obtain ⟨w₂, stack', hw₂, hsame, h₄⟩ := hfinishes
        refine (h₄.meets.goto hgoto hend).mono fun m₅ h₅ ↦ ?_
        refine ⟨w₂, stack', hw₁.weaken.trans hw₂, hsame, h₄.same (.refl _ w₂) ?_⟩
        simp only [Fragment.size_append, Nat.add_assoc] at h₅ ⊢
        exact h₅
      · exact .arrived (hfinishes.of_earlier hw₁.weaken (.refl stack))
  | ret hvalue hemits =>
    refine .atNode hline (.bind (hemits.evaluates hcall rfl hvalue hfree hcode.left h) ?_)
    rintro value st₁ m₂ ⟨w₁, word, hw₁, h₂, hword⟩
    exact .pure ⟨w₁, stack, _, word, line, [], hw₁.weaken, .refl stack, h₂, hword, hcode.right⟩
  | literal _ | load _ | lookup _ _ | lambda _ _ | named _ _ _ | call _ _ _ | object _ _
  | field _ _ _ | method _ _ _ _ => cases he

theorem Block.Emits.executes {body : Block} {site : Site} {start : Nat} {line : UInt32}
    {code : Fragment} {stack : Array Word} {w : World} {st : RunState} {m₁ : Machine}
    (hemits : body.Emits p.pool.dict site start line code) (hcall : call.Simulated p)
    (hfree : body.isCaptureFree site.scopes = true) (hcode : m.code.Contains start code)
    (h : m.Ready p own env site w start stack st m₁) :
    Simulates m.function.name line (body.execTraced call (own :: env)) st
      (m.Finishes p own env site w (start + code.size) stack) m₁ := by
  obtain ⟨_, _⟩ := site
  cases hemits with
  | mk hinstrs => exact hinstrs.execute hcall hfree hcode h

theorem EmitsInstrs.execute {es : List Expr} {site : Site} {start : Nat} {line : UInt32}
    {code : Fragment} {stack : Array Word} {w : World} {st : RunState} {m₁ : Machine}
    (hemits : EmitsInstrs p.pool.dict site start line es code) (hcall : call.Simulated p)
    (hfree : listIsCaptureFree site.scopes es = true) (hcode : m.code.Contains start code)
    (h : m.Ready p own env site w start stack st m₁) :
    Simulates m.function.name line (execListTraced call (own :: env) es) st
      (m.Finishes p own env site w (start + code.size) stack) m₁ := by
  obtain ⟨_, _⟩ := site
  cases hemits with
  | nil => exact .pure ⟨w, stack, .refl _ w, .refl stack, h⟩
  | instruction he hemits hrest =>
    simp only [listIsCaptureFree, Bool.and_eq_true] at hfree
    rw [execListTraced, if_pos he]
    refine .bind (hemits.executes hcall rfl he hfree.1 hcode.left h) ?_
    rintro (_ | result) st₁ m₂ hfinishes
    · obtain ⟨w₁, stack', hw₁, hsame, h₂⟩ := hfinishes
      refine (hrest.execute hcall hfree.2 hcode.right h₂).mono fun _ _ _ h ↦ ?_
      simp only [Fragment.size_append, Nat.add_assoc] at h ⊢
      exact h.of_earlier hw₁ hsame
    · exact .pure hfinishes
  | value he hemits hrest =>
    simp only [listIsCaptureFree, Bool.and_eq_true] at hfree
    rw [List.append_assoc] at hcode
    rw [execListTraced, if_neg (by rw [he]; exact Bool.false_ne_true)]
    refine .bind (hemits.evaluates hcall rfl he hfree.1 hcode.left h) ?_
    rintro value st₁ m₂ ⟨w₁, word, hw₁, h₂, -⟩
    refine .after (h₂.pop hcode.right) fun m₃ h₃ ↦ ?_
    refine (hrest.execute hcall hfree.2 hcode.right.right (h.same hw₁ h₃)).mono fun _ _ _ h ↦ ?_
    simp only [Fragment.size_append, Nat.add_assoc] at h ⊢
    exact h.of_earlier hw₁.weaken (.refl stack)

end

end Nodes

end TandemScript
