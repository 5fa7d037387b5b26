import TandemScript.Proofs.Limits
import TandemScript.Proofs.Stored

/-!
# Every run ends

The tree evaluator calls itself for subtrees and for calls of functions, and calls may only nest as
deeply as the limits of the run allow, so that a budget above this depth is never used up. It only
meets functions that are built in or written in the tree, because nothing else gets into the names,
activations and records of a run on the tree. Machines end because compiled jumps go forward and
windows of calls use up the stack.
-/

namespace TandemScript

/-! ## Values of the tree -/

/-- The function is built in, or a literal of the tree. -/
def Function.OfTree (f : Function) : Prop :=
  (∃ op : Builtin, f.body = .native (.builtin op)) ∨
    ∃ params body env, f.body = .closure params body env

/-- A value that the tree evaluator meets. -/
def Value.OfTree : Value → Prop
  | .function f => f.OfTree
  | _ => True

theorem Builtin.call_ofTree {records : Records} {op : Builtin} {args : List Value} {value : Value}
    {output : String} (h : op.call records args = (.ok value, output)) : value.OfTree := by
  rcases Builtin.call_ok h with rfl | ⟨n, rfl⟩ <;> trivial

/-- A state of a run on the tree, with its limits and so many active calls. -/
structure RunState.OfTree (config : Config) (depth : Nat) (st : RunState) : Prop where
  config : st.config = config
  depth : st.depth = depth
  globals : st.globals.All Value.OfTree
  frames : ∀ bindings ∈ st.frames.cells, bindings.All Value.OfTree
  records : ∀ record ∈ st.records.cells, ∀ value ∈ record.fields, value.OfTree

theorem RunState.OfTree.stores {config : Config} {depth : Nat} {st : RunState}
    (h : st.OfTree config depth) : st.Stores Value.OfTree :=
  ⟨h.globals, h.frames, h.records⟩

theorem RunState.OfTree.of_stores {config : Config} {depth : Nat} {st : RunState}
    (hconfig : st.config = config) (hdepth : st.depth = depth) (h : st.Stores Value.OfTree) :
    st.OfTree config depth :=
  ⟨hconfig, hdepth, h.globals, h.frames, h.records⟩

/-- The computation leaves states of the run behind and values with a property, and it is not cut
off. -/
def Run.Stays {α : Type} (config : Config) (depth : Nat) (P : α → Prop) (x : Run α) : Prop :=
  ∀ st, st.OfTree config depth →
    Ensures x st (fun a st' ↦ P a ∧ st'.OfTree config depth) fun stop _ ↦ stop ≠ .unfinished

namespace Run.Stays

variable {config : Config} {depth : Nat} {α β : Type} {P : α → Prop} {Q : β → Prop}

theorem pure {a : α} (h : P a) : Stays config depth P (Pure.pure a) :=
  fun _ hst ↦ .pure ⟨h, hst⟩

theorem bind {x : Run α} {f : α → Run β} (hx : Stays config depth P x)
    (hf : ∀ a, P a → Stays config depth Q (f a)) : Stays config depth Q (x >>= f) :=
  fun st hst ↦ Ensures.bind (hx st hst) fun a _ h ↦ hf a h.1 _ h.2

theorem annotate {x : Run α} (hx : Stays config depth P x) (note : Failure → Failure) :
    Stays config depth P (Run.annotate note x) := by
  refine fun st hst ↦ .annotate ((hx st hst).mono (fun _ _ h ↦ h) ?_)
  rintro (failure | _) _ h
  · exact Stop.noConfusion
  · exact h

theorem fail (failure : Failure) : Stays config depth P (Run.fail failure) :=
  fun _ _ ↦ .of_error rfl Stop.noConfusion

theorem notA (expected : String) (found : Value) :
    Stays config depth P (fun st ↦ .error (.failed (.notA expected st.records found)) st) :=
  fun _ _ ↦ .of_error rfl Stop.noConfusion

/-! ## Operations -/

theorem readVar (env : Env) (name : String) :
    Stays config depth Value.OfTree (Run.readVar env name) := by
  intro st hst
  obtain ⟨value, hread, hvalue⟩ := hst.stores.readVar trivial env name
  exact .of_ok hread ⟨hvalue, hst⟩

theorem writeVar (env : Env) (name : String) {value : Value} (hvalue : value.OfTree)
    (declares : Bool) :
    Stays config depth (fun _ ↦ True) (Run.writeVar env name value declares) := by
  refine fun st hst ↦ .writeVar (fun id _ ↦ ?_) fun _ ↦ Stop.noConfusion
  exact ⟨trivial, .of_stores hst.config hst.depth (hst.stores.bind id name hvalue)⟩

theorem readField {receiver : Value} (name : String) :
    Stays config depth Value.OfTree (Run.readField receiver name) := by
  refine fun st hst ↦ .readField (fun value hread ↦ ?_) Stop.noConfusion
  exact ⟨hst.stores.readField trivial hread, hst⟩

theorem setGlobal (name : String) {value : Value} (hvalue : value.OfTree) :
    Stays config depth (fun _ ↦ True) (Run.setGlobal name value) :=
  fun _ hst ↦ ⟨trivial, .of_stores hst.config hst.depth (hst.stores.setGlobal name hvalue)⟩

theorem writeField (receiver : Value) (name : String) {value : Value} (hvalue : value.OfTree) :
    Stays config depth (fun _ ↦ True) (Run.writeField receiver name value) := by
  refine fun st hst ↦ .writeField (fun id slot ↦ ?_) ?_ Stop.noConfusion Stop.noConfusion
  · exact ⟨trivial, .of_stores hst.config hst.depth (hst.stores.setSlot id slot hvalue)⟩
  · exact ⟨trivial, .of_stores hst.config hst.depth (hst.stores.setGlobal name hvalue)⟩

theorem closure (env : Env) (name : Option String) (params : List String) (body : Block) :
    Stays config depth Value.OfTree (Run.closure env name params body) := by
  have hfresh : Stays config depth (fun _ ↦ True) Run.freshId :=
    fun _ hst ↦ ⟨trivial, { hst with }⟩
  refine bind hfresh fun id _ ↦ ?_
  have hfunction : (Value.function
      ⟨id, name.getD Function.anonymous, .closure params body env⟩).OfTree :=
    .inr ⟨params, body, env, rfl⟩
  cases name with
  | none => exact pure hfunction
  | some name => exact bind (setGlobal name hfunction) fun _ _ ↦ pure hfunction

theorem objectLiteral (keys : List String) {values : List Value}
    (hvalues : ∀ value ∈ values, value.OfTree) :
    Stays config depth Value.OfTree (Run.objectLiteral keys values) := by
  intro st hst
  obtain ⟨id, records, hliteral, hstores⟩ := hst.stores.objectLiteral keys hvalues
  exact .of_ok hliteral ⟨trivial, .of_stores hst.config hst.depth hstores⟩

theorem activate {bindings : Bindings} (hbindings : bindings.All Value.OfTree) :
    Stays config depth (fun _ ↦ True) (Run.activate bindings) :=
  fun _ hst ↦ ⟨trivial, .of_stores hst.config hst.depth (hst.stores.addFrame hbindings)⟩

theorem report (event : RunState → Event) :
    Stays config depth (fun _ ↦ True) (do Run.report (event (← get))) :=
  fun _ hst ↦ ⟨trivial, { hst with }⟩

theorem builtin (op : Builtin) (receiver : Value) (args : List Value) :
    Stays config depth Value.OfTree (Native.call (.builtin op) receiver args) := by
  refine fun st hst ↦ .builtin (fun value output hcall ↦ ?_) fun _ _ _ ↦ Stop.noConfusion
  exact ⟨Builtin.call_ofTree hcall, { hst with }⟩

theorem insideCall {x : Run α} (hx : depth < config.nestingLimit → Stays config (depth + 1) P x) :
    Stays config depth P (Run.insideCall x) := by
  refine fun st hst ↦ .insideCall (fun hdepth ↦ ?_) fun _ ↦ Stop.noConfusion
  rw [hst.depth, hst.config] at hdepth
  have h := hx hdepth { st with depth := st.depth + 1 }
    { hst with depth := congrArg (· + 1) hst.depth }
  exact h.mono (fun _ _ h ↦ ⟨h.1, { h.2 with depth := congrArg (· - 1) h.2.depth }⟩)
    fun _ _ h ↦ h

end Run.Stays

/-! ## The walk over the tree -/

/-- Calls of functions of the tree are not cut off. -/
def Caller.Stays (config : Config) (depth : Nat) (call : Caller) : Prop :=
  ∀ f receiver args, f.OfTree → receiver.OfTree → (∀ arg ∈ args, Value.OfTree arg) →
    Run.Stays config depth Value.OfTree (call f receiver args)

section Walk

variable {config : Config} {depth : Nat} {call : Caller}

theorem Caller.Stays.callValue (hcall : call.Stays config depth) {callee receiver : Value}
    {args : List Value} (hcallee : callee.OfTree) (hreceiver : receiver.OfTree)
    (hargs : ∀ arg ∈ args, Value.OfTree arg) :
    Run.Stays config depth Value.OfTree (Run.callValue call callee receiver args) := by
  cases callee with
  | function f => exact hcall f receiver args hcallee hreceiver hargs
  | _ => exact .notA _ _

mutual

theorem Expr.eval_stays (hcall : call.Stays config depth) (env : Env) (e : Expr) :
    Run.Stays config depth Value.OfTree (e.eval call env) := by
  cases e with
  | literal value line => cases value <;> exact .annotate (.pure trivial) _
  | var name line => exact .annotate (.readVar env name) _
  | function name params body line => exact .annotate (.closure env name params body) _
  | call callee args line =>
    refine .annotate (.bind (Expr.eval_stays hcall env callee) fun callee hcallee ↦ ?_) _
    exact .bind (evalList_stays hcall env args) fun args hargs ↦
      hcall.callValue hcallee trivial hargs
  | object fields line =>
    exact .annotate (.bind (evalFields_stays hcall env fields) fun values hvalues ↦
      .objectLiteral _ hvalues) _
  | field receiver name line =>
    exact .annotate (.bind (Expr.eval_stays hcall env receiver) fun _ _ ↦ .readField name) _
  | method receiver name args line =>
    refine .annotate (.bind (Expr.eval_stays hcall env receiver) fun receiver hreceiver ↦ ?_) _
    refine .bind (.readField name) fun method hmethod ↦ ?_
    exact .bind (evalList_stays hcall env args) fun args hargs ↦
      hcall.callValue hmethod hreceiver hargs
  | _ => exact .annotate (.fail _) _

theorem evalList_stays (hcall : call.Stays config depth) (env : Env) (es : List Expr) :
    Run.Stays config depth (fun values ↦ ∀ value ∈ values, Value.OfTree value)
      (evalList call env es) := by
  cases es with
  | nil => exact .pure (by simp)
  | cons e rest =>
    refine .bind (Expr.eval_stays hcall env e) fun value hvalue ↦ ?_
    refine .bind (evalList_stays hcall env rest) fun values hvalues ↦ .pure ?_
    exact List.forall_mem_cons.mpr ⟨hvalue, hvalues⟩

theorem evalFields_stays (hcall : call.Stays config depth) (env : Env)
    (fields : List (String × Expr)) :
    Run.Stays config depth (fun values ↦ ∀ value ∈ values, Value.OfTree value)
      (evalFields call env fields) := by
  cases fields with
  | nil => exact .pure (by simp)
  | cons field rest =>
    obtain ⟨key, e⟩ := field
    refine .bind (Expr.eval_stays hcall env e) fun value hvalue ↦ ?_
    refine .bind (evalFields_stays hcall env rest) fun values hvalues ↦ .pure ?_
    exact List.forall_mem_cons.mpr ⟨hvalue, hvalues⟩

end

/-- What an instruction gives, if it returns. -/
abbrev ResultOfTree (result : Option Value) : Prop :=
  ∀ value, result = some value → value.OfTree

mutual

theorem Expr.exec_stays (hcall : call.Stays config depth) (env : Env) (e : Expr) :
    Run.Stays config depth ResultOfTree (e.exec call env) := by
  have hnone : ResultOfTree none := fun _ h ↦ by cases h
  cases e with
  | block body => exact .annotate (Block.exec_stays hcall env body) _
  | assign name value declares line =>
    refine .annotate (.bind (Expr.eval_stays hcall env value) fun value hvalue ↦ ?_) _
    exact .bind (.writeVar env name hvalue declares) fun _ _ ↦ .pure hnone
  | setField receiver name value line =>
    refine .annotate (.bind (Expr.eval_stays hcall env receiver) fun receiver _ ↦ ?_) _
    refine .bind (Expr.eval_stays hcall env value) fun value hvalue ↦ ?_
    exact .bind (.writeField receiver name hvalue) fun _ _ ↦ .pure hnone
  | cond test onTrue onFalse line =>
    refine .annotate (.bind (Expr.eval_stays hcall env test) fun value _ ↦ ?_) _
    split
    · exact Block.exec_stays hcall env onFalse
    · exact Block.exec_stays hcall env onTrue
  | ret value line =>
    refine .annotate (.bind (Expr.eval_stays hcall env value) fun value hvalue ↦ .pure ?_) _
    rintro _ ⟨⟩
    exact hvalue
  | _ => exact .annotate (.pure hnone) _

theorem Block.exec_stays (hcall : call.Stays config depth) (env : Env) (body : Block) :
    Run.Stays config depth ResultOfTree (body.exec call env) := by
  cases body with
  | mk instrs line => exact execList_stays hcall env instrs

theorem execList_stays (hcall : call.Stays config depth) (env : Env) (es : List Expr) :
    Run.Stays config depth ResultOfTree (execList call env es) := by
  cases es with
  | nil => exact .pure fun _ h ↦ by cases h
  | cons e rest =>
    unfold execList
    split
    · refine .bind (Expr.exec_stays hcall env e) fun result hresult ↦ ?_
      cases result with
      | some value => exact .pure hresult
      | none => exact execList_stays hcall env rest
    · exact .bind (Expr.eval_stays hcall env e) fun _ _ ↦ execList_stays hcall env rest

end

theorem Block.evaluate_stays (hcall : call.Stays config depth) (name : String) (body : Block)
    (env : Env) : Run.Stays config depth Value.OfTree (body.evaluate call name env) := by
  refine .annotate (.bind (Block.exec_stays hcall env body) fun result hresult ↦ .pure ?_) _
  cases result with
  | none => trivial
  | some value => exact hresult value rfl

theorem Function.evaluate_stays (hcall : call.Stays config depth) (f : Function)
    (params : List String) (body : Block) (env : Env) {receiver : Value} {args : List Value}
    (hreceiver : receiver.OfTree) (hargs : ∀ arg ∈ args, Value.OfTree arg) :
    Run.Stays config depth Value.OfTree (f.evaluate call params body env receiver args) := by
  unfold Function.evaluate
  split
  · exact .fail _
  · have hbindings := Bindings.All.activation (P := Value.OfTree) trivial hreceiver hargs params
      body.declared
    refine .bind (.activate hbindings) fun frame _ ↦ ?_
    have hreport : Run.Stays config depth _ _ := .report fun st ↦
      .closureCall f.name args.length st.depth
    have hbody := Run.Stays.bind hreport fun _ _ ↦
      Block.evaluate_stays hcall f.name body (frame :: env)
    simpa only [bind_assoc] using hbody

end Walk

/-! ## Engines -/

/-- A budget that is greater than the calls that may still nest is not used up. -/
theorem Function.callWithin_stays {config : Config} {steps depth : Nat}
    (hdepth : depth ≤ config.nestingLimit) (hsteps : config.nestingLimit < steps + depth) :
    (Function.callWithin steps).Stays config depth := by
  induction steps generalizing depth with
  | zero => omega
  | succ steps ih =>
    intro f receiver args hf hreceiver hargs
    unfold Function.callWithin
    rcases hf with ⟨op, hbody⟩ | ⟨params, body, env, hbody⟩
    · simp only [hbody]
      exact .builtin op receiver args
    · simp only [hbody]
      refine .insideCall fun hlt ↦ ?_
      exact Function.evaluate_stays (ih hlt (by omega)) f params body env hreceiver hargs

theorem RunState.new_ofTree (config : Config) (level : Option Level) :
    (RunState.new config level).OfTree config 0 :=
  .of_stores rfl rfl (.new config level (fun op ↦ .inl ⟨op, rfl⟩) trivial)

theorem Script.evaluate_stays {config : Config} {steps : Nat} (hsteps : config.nestingLimit < steps)
    (script : Script) :
    Run.Stays config 0 Value.OfTree (script.evaluate (Function.callWithin steps)) := by
  have hbindings : (Bindings.activation .undefined [] [] script.body.declared).All Value.OfTree :=
    .activation trivial trivial (by simp) _ _
  refine .bind (.activate hbindings) fun frame _ ↦ .insideCall fun hlt ↦ ?_
  exact Block.evaluate_stays (Function.callWithin_stays hlt (by omega)) "main" script.body [frame]

/-- Every run has an outcome, which it comes to with every budget that is great enough: on the tree
whatever the script is, in a machine if the script is accepted. -/
theorem exists_outcome (engine : Engine) (script : Script) (config : Config) (level : Option Level)
    (haccepted : engine = .machine → ∃ main pool, script.Accepted config level main pool) :
    ∃ enough outcome, (∀ st, outcome ≠ .error .unfinished st) ∧
      ∀ steps, enough ≤ steps → script.runOn engine steps (.new config level) = outcome := by
  have hends : ∃ enough, ∀ st,
      script.runOn engine enough (.new config level) ≠ .error .unfinished st := by
    cases engine with
    | machine =>
      obtain ⟨main, pool, h⟩ := haccepted rfl
      obtain ⟨enough, hfinishes⟩ := h.machine_finishes
      refine ⟨enough, fun st hrun ↦ ?_⟩
      have hends := hfinishes enough (Nat.le_refl _)
      unfold Ensures at hends
      rw [hrun] at hends
      obtain ⟨failure, hfailed, -⟩ := hends
      cases hfailed
    | tree =>
      refine ⟨config.nestingLimit + 1, fun st hrun ↦ ?_⟩
      have hstays := script.evaluate_stays (Nat.lt_succ_self _) _ (RunState.new_ofTree config level)
      have hevaluate : script.evaluate _ _ = .error .unfinished st := hrun
      unfold Ensures at hstays
      rw [hevaluate] at hstays
      exact hstays rfl
  obtain ⟨enough, hends⟩ := hends
  refine ⟨enough, script.runOn engine enough (.new config level), hends, fun steps hsteps ↦ ?_⟩
  have hfollows := Script.runOn_lockstep engine hsteps script (.new config level) _ rfl
  cases hrun : script.runOn engine enough (.new config level) with
  | ok value st =>
    rw [hrun] at hfollows
    obtain ⟨_, hsame, rfl⟩ := hfollows
    exact hsame
  | error stop st =>
    rw [hrun] at hfollows
    rcases hfollows with rfl | ⟨_, hsame, rfl⟩
    · exact absurd hrun (hends st)
    · exact hsame

/-- A program that calls a function of its own without end. -/
def endlessCalls : Script :=
  .ofList [.lambda (some "again") [] [.returning (.applyGlobal "again" [])],
    .applyGlobal "again" []]

/-- Whether a run ended because the stack ran out. -/
def Outcome.isStackExhausted : Outcome → Bool
  | .error (.failed ⟨.exhausted .stack _, _⟩) _ => true
  | _ => false

/-- A program that calls without end has an outcome: the stack runs out. -/
theorem endlessCalls_outcome :
    ∃ enough outcome, (∀ st, outcome ≠ .error .unfinished st) ∧
      (∀ steps, enough ≤ steps →
        endlessCalls.runOn .machine steps (.new ⟨40, 40, .abort⟩) = outcome) ∧
      Outcome.isStackExhausted outcome = true := by
  have hcheck : Outcome.isStackExhausted
      (endlessCalls.runOn .machine 60 (.new ⟨40, 40, .abort⟩)) = true := by
    decide +kernel
  obtain ⟨enough, outcome, hends, hsame⟩ :=
    exists_outcome .machine endlessCalls ⟨40, 40, .abort⟩ none
      fun _ ↦ endlessCalls.accepted_of_check (by decide +kernel) _
  refine ⟨enough, outcome, hends, hsame, ?_⟩
  have hfollows := Script.runOn_lockstep .machine (Nat.le_add_right 60 enough) endlessCalls
    (.new ⟨40, 40, .abort⟩) _ rfl
  rw [hsame _ (Nat.le_add_left _ _)] at hfollows
  cases hrun : endlessCalls.runOn .machine 60 (.new ⟨40, 40, .abort⟩) with
  | ok value st => simp [hrun, Outcome.isStackExhausted] at hcheck
  | error stop st =>
    rw [hrun] at hfollows hcheck
    rcases hfollows with rfl | ⟨_, rfl, rfl⟩
    · simp [Outcome.isStackExhausted] at hcheck
    · exact hcheck

end TandemScript
