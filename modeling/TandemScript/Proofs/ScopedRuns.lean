import TandemScript.Proofs.Stored
import TandemScript.Proofs.WellFormed

/-!
# Runs of well-formed programs

The evaluator resolves a name in the activations that a function literal was written in, when the
literal is called, wherever that may be. An activation has all variables of its function from the
start and never loses one, and only well-formed literals get into the values that a run keeps.
So whatever is called, an assignment finds its variable in the innermost activation, and every node
that is evaluated has a value.
-/

namespace TandemScript

/-- The function is built in, or a well-formed literal. -/
def Function.IsWellFormed (f : Function) : Prop :=
  (∃ op : Builtin, f.body = .native (.builtin op)) ∨ ∃ params body env,
    f.body = .closure params body env ∧ body.isWellFormed (body.variables params) = true

/-- A function is well formed; nothing is asked of other values. -/
def Value.IsWellFormed : Value → Prop
  | .function f => f.IsWellFormed
  | _ => True

/-- An activation has some variables. -/
abbrev Bound := FrameId → String → Prop

/-- The variables that are bound, and those of one more activation. -/
def Bound.extend (bound : Bound) (own : FrameId) (names : List String) : Bound := fun id name ↦
  bound id name ∨ id = own ∧ name ∈ names

/-- All functions that the run keeps are well formed, and some variables are bound. -/
structure RunState.WellScoped (bound : Bound) (st : RunState) : Prop where
  stores : st.Stores Value.IsWellFormed
  binds : ∀ id name, bound id name → (st.frames.getIn? id name).isSome = true

/-- No name and no node is the cause. -/
def Cause.RespectsScopes (cause : Cause) : Prop :=
  (∀ name, cause ≠ .undefinedVariable name) ∧ ∀ detail, cause ≠ .inconsistent detail

def Stop.RespectsScopes : Stop → Prop
  | .failed failure => failure.cause.RespectsScopes
  | .unfinished => True

/-- Whatever variables are bound are bound afterwards, only well-formed functions are stored, and
neither a name nor a node is the cause of a failure. -/
def Run.Respects {α : Type} (bound : Bound) (P : α → Prop) (x : Run α) : Prop :=
  ∀ st, st.WellScoped bound →
    Ensures x st (fun a st' ↦ P a ∧ st'.WellScoped bound) fun stop _ ↦ stop.RespectsScopes

theorem Cause.respectsScopes_exhausted (resource : Resource) (capacity : Nat) :
    (Cause.exhausted resource capacity).RespectsScopes :=
  ⟨fun _ ↦ Cause.noConfusion, fun _ ↦ Cause.noConfusion⟩

theorem Failure.respectsScopes_notA (expected : String) (records : Records) (found : Value) :
    (notA expected records found).cause.RespectsScopes :=
  ⟨fun _ ↦ Cause.noConfusion, fun _ ↦ Cause.noConfusion⟩

theorem Builtin.respectsScopes_of_call {records : Records} {op : Builtin} {args : List Value}
    {failure : Failure} {output : String} (h : op.call records args = (.error failure, output)) :
    failure.cause.RespectsScopes := by
  rcases Builtin.failure_of_call h with ⟨expected, found, rfl⟩ | rfl | rfl
  · exact Failure.respectsScopes_notA expected records found
  · exact ⟨fun _ ↦ Cause.noConfusion, fun _ ↦ Cause.noConfusion⟩
  · exact ⟨fun _ ↦ Cause.noConfusion, fun _ ↦ Cause.noConfusion⟩

namespace Frames

theorem isSome_getIn?_bind {frames : Frames} {id : FrameId} {name : String}
    (h : (frames.getIn? id name).isSome = true) (own : FrameId) (other : String) (value : Value) :
    ((frames.bind own other value).getIn? id name).isSome = true := by
  obtain ⟨found, hfound⟩ := Option.isSome_iff_exists.mp h
  by_cases hsame : name = other ∧ id = own
  · obtain ⟨rfl, rfl⟩ := hsame
    rw [getIn?_bind_self (lt_size_of_getIn? hfound)]
    rfl
  · rw [getIn?_bind_of_ne hsame]
    exact h

theorem isSome_getIn?_add {frames : Frames} {id : FrameId} {name : String}
    (h : (frames.getIn? id name).isSome = true) (bindings : Bindings) :
    ((frames.add bindings).2.getIn? id name).isSome = true := by
  obtain ⟨found, hfound⟩ := Option.isSome_iff_exists.mp h
  rw [getIn?_add_of_ne (Nat.ne_of_lt (lt_size_of_getIn? hfound))]
  exact h

end Frames

namespace RunState.WellScoped

variable {bound : Bound} {st : RunState}

theorem of_stores (h : st.WellScoped bound) {st' : RunState}
    (hstores : st'.Stores Value.IsWellFormed) (hframes : st'.frames = st.frames) :
    st'.WellScoped bound :=
  ⟨hstores, by rw [hframes]; exact h.binds⟩

theorem mono {bound' : Bound} (h : st.WellScoped bound')
    (hbound : ∀ id name, bound id name → bound' id name) : st.WellScoped bound :=
  ⟨h.stores, fun id name hname ↦ h.binds id name (hbound id name hname)⟩

theorem bind (h : st.WellScoped bound) (id : FrameId) (name : String) {value : Value}
    (hvalue : value.IsWellFormed) :
    WellScoped bound { st with frames := st.frames.bind id name value } :=
  ⟨h.stores.bind id name hvalue, fun other found hbound ↦
    Frames.isSome_getIn?_bind (h.binds other found hbound) id name value⟩

/-- A new activation binds its variables. -/
theorem addFrame (h : st.WellScoped bound) {bindings : Bindings}
    (hbindings : bindings.All Value.IsWellFormed) {names : List String}
    (hnames : ∀ name ∈ names, (bindings.get? name).isSome = true) :
    WellScoped (bound.extend st.frames.cells.size names)
      { st with frames := (st.frames.add bindings).2 } := by
  refine ⟨h.stores.addFrame hbindings, fun id name hbound ↦ ?_⟩
  rcases hbound with hbound | ⟨rfl, hname⟩
  · exact Frames.isSome_getIn?_add (h.binds id name hbound) bindings
  · rw [Frames.getIn?_add_new]
    exact hnames name hname

end RunState.WellScoped

/-- The activation of a well-formed function has all its variables. -/
theorem Bindings.isSome_activation (receiver : Value) {params : List String} {args : List Value}
    (body : Block) (hlength : args.length = params.length) {name : String}
    (hname : name ∈ body.variables params) :
    ((activation receiver params args body.declared).get? name).isSome = true := by
  obtain ⟨count, hfits⟩ := activation_fits receiver params args body hlength
  rw [hfits.isSome, Shape.isSome_slot?_ofFunction]
  exact decide_eq_true hname

namespace Run.Respects

variable {bound : Bound} {α β : Type} {P : α → Prop} {Q : β → Prop}

theorem pure {a : α} (h : P a) : Respects bound P (Pure.pure a) :=
  fun _ hst ↦ .pure ⟨h, hst⟩

theorem bind {x : Run α} {f : α → Run β} (hx : Respects bound P x)
    (hf : ∀ a, P a → Respects bound Q (f a)) : Respects bound Q (x >>= f) :=
  fun st hst ↦ Ensures.bind (hx st hst) fun a _ h ↦ hf a h.1 _ h.2

theorem annotate {x : Run α} (hx : Respects bound P x) {note : Failure → Failure}
    (hnote : ∀ failure, (note failure).cause = failure.cause) :
    Respects bound P (Run.annotate note x) := by
  refine fun st hst ↦ .annotate ((hx st hst).mono (fun _ _ h ↦ h) ?_)
  rintro (failure | _) _ h
  · change (note failure).cause.RespectsScopes
    rw [hnote]
    exact h
  · exact h

theorem noteLine {x : Run α} (hx : Respects bound P x) (line : UInt32) :
    Respects bound P (Run.annotate (·.noteLine line) x) :=
  hx.annotate (Failure.cause_noteLine · line)

theorem fail {failure : Failure} (h : failure.cause.RespectsScopes) :
    Respects bound P (Run.fail failure) :=
  fun _ _ ↦ .of_error rfl h

theorem notA (expected : String) (found : Value) :
    Respects bound P (fun st ↦ .error (.failed (.notA expected st.records found)) st) :=
  fun st _ ↦ .of_error rfl (Failure.respectsScopes_notA expected st.records found)

/-! ## Operations -/

theorem readVar (env : Env) (name : String) :
    Respects bound Value.IsWellFormed (Run.readVar env name) := by
  intro st hst
  obtain ⟨value, hread, hvalue⟩ := hst.stores.readVar trivial env name
  exact .of_ok hread ⟨hvalue, hst⟩

/-- A variable of the innermost activation is written there, whether it is declared or not. -/
theorem writeVar {own : FrameId} {name : String} (hbound : bound own name) (env : Env)
    {value : Value} (hvalue : value.IsWellFormed) (declares : Bool) :
    Respects bound (fun _ ↦ True) (Run.writeVar (own :: env) name value declares) := by
  intro st hst
  have hown : (if declares then List.head? (own :: env) else st.frames.owner? name (own :: env)) =
      some own := by
    unfold Frames.owner?
    rw [if_pos (hst.binds own name hbound)]
    exact ite_self _
  unfold Ensures
  rw [Run.writeVar_apply, hown]
  exact ⟨trivial, hst.bind own name hvalue⟩

theorem readField {receiver : Value} (name : String) :
    Respects bound Value.IsWellFormed (Run.readField receiver name) := by
  refine fun st hst ↦ .readField (fun value hread ↦ ?_) (Failure.respectsScopes_notA _ _ _)
  exact ⟨hst.stores.readField trivial hread, hst⟩

theorem setGlobal (name : String) {value : Value} (hvalue : value.IsWellFormed) :
    Respects bound (fun _ ↦ True) (Run.setGlobal name value) :=
  fun _ hst ↦ ⟨trivial, hst.of_stores (hst.stores.setGlobal name hvalue) rfl⟩

theorem writeField (receiver : Value) (name : String) {value : Value}
    (hvalue : value.IsWellFormed) :
    Respects bound (fun _ ↦ True) (Run.writeField receiver name value) := by
  refine fun st hst ↦ .writeField (fun id slot ↦ ?_) ?_ ?_ (Failure.respectsScopes_notA _ _ _)
  · exact ⟨trivial, hst.of_stores (hst.stores.setSlot id slot hvalue) rfl⟩
  · exact ⟨trivial, hst.of_stores (hst.stores.setGlobal name hvalue) rfl⟩
  · exact ⟨fun _ ↦ Cause.noConfusion, fun _ ↦ Cause.noConfusion⟩

theorem closure (env : Env) (name : Option String) {params : List String} {body : Block}
    (hbody : body.isWellFormed (body.variables params) = true) :
    Respects bound Value.IsWellFormed (Run.closure env name params body) := by
  have hfresh : Respects bound (fun _ ↦ True) Run.freshId :=
    fun _ hst ↦ ⟨trivial, hst.of_stores { hst.stores with } rfl⟩
  refine bind hfresh fun id _ ↦ ?_
  have hfunction : (Value.function
      ⟨id, name.getD Function.anonymous, .closure params body env⟩).IsWellFormed :=
    .inr ⟨params, body, env, rfl, hbody⟩
  cases name with
  | none => exact pure hfunction
  | some name => exact bind (setGlobal name hfunction) fun _ _ ↦ pure hfunction

theorem objectLiteral (keys : List String) {values : List Value}
    (hvalues : ∀ value ∈ values, value.IsWellFormed) :
    Respects bound Value.IsWellFormed (Run.objectLiteral keys values) := by
  intro st hst
  obtain ⟨id, records, hliteral, hstores⟩ := hst.stores.objectLiteral keys hvalues
  exact .of_ok hliteral ⟨trivial, hst.of_stores hstores rfl⟩

/-- What runs in a new activation may rely on its variables. -/
theorem activate {bindings : Bindings} (hbindings : bindings.All Value.IsWellFormed)
    {names : List String} (hnames : ∀ name ∈ names, (bindings.get? name).isSome = true)
    {f : FrameId → Run β} (hf : ∀ own, Respects (bound.extend own names) Q (f own)) :
    Respects bound Q (Run.activate bindings >>= f) := by
  intro st hst
  refine Ensures.bind_ok (t := { st with frames := (st.frames.add bindings).2 }) rfl ?_
  refine (hf st.frames.cells.size _ (hst.addFrame hbindings hnames)).mono ?_ fun _ _ h ↦ h
  exact fun value st' h ↦ ⟨h.1, h.2.mono fun _ _ ↦ .inl⟩

theorem report (event : RunState → Event) :
    Respects bound (fun _ ↦ True) (do Run.report (event (← get))) :=
  fun _ hst ↦ ⟨trivial, hst.of_stores { hst.stores with } rfl⟩

theorem builtin (op : Builtin) (receiver : Value) (args : List Value) :
    Respects bound Value.IsWellFormed (Native.call (.builtin op) receiver args) := by
  refine fun st hst ↦ .builtin (fun value output hcall ↦ ?_) fun failure output hcall ↦
    Builtin.respectsScopes_of_call hcall
  refine ⟨?_, hst.of_stores { hst.stores with } rfl⟩
  rcases Builtin.call_ok hcall with rfl | ⟨n, rfl⟩ <;> trivial

theorem insideCall {x : Run α} (hx : Respects bound P x) :
    Respects bound P (Run.insideCall x) := by
  refine fun st hst ↦ .insideCall (fun _ ↦ ?_) fun _ ↦ Cause.respectsScopes_exhausted _ _
  have h := hx { st with depth := st.depth + 1 } (hst.of_stores { hst.stores with } rfl)
  exact h.mono (fun _ _ h ↦ ⟨h.1, h.2.of_stores { h.2.stores with } rfl⟩) fun _ _ h ↦ h

end Run.Respects

/-! ## The walk over the tree -/

/-- Calls of well-formed functions respect scopes. -/
def Caller.Respects (call : Caller) : Prop :=
  ∀ bound f receiver args, f.IsWellFormed → receiver.IsWellFormed →
    (∀ arg ∈ args, Value.IsWellFormed arg) →
      Run.Respects bound Value.IsWellFormed (call f receiver args)

theorem Caller.Respects.callValue {call : Caller} (hcall : call.Respects) {bound : Bound}
    {callee receiver : Value} {args : List Value} (hcallee : callee.IsWellFormed)
    (hreceiver : receiver.IsWellFormed) (hargs : ∀ arg ∈ args, Value.IsWellFormed arg) :
    Run.Respects bound Value.IsWellFormed (Run.callValue call callee receiver args) := by
  cases callee with
  | function f => exact hcall bound f receiver args hcallee hreceiver hargs
  | _ => exact .notA _ _

section Walk

variable {bound : Bound} {call : Caller} {own : FrameId} {names : List String}

mutual

theorem Expr.eval_respects (hcall : call.Respects) (env : Env) {names : List String} (e : Expr)
    (hvalue : e.isInstruction = false) (h : e.isWellFormed names = true) :
    Run.Respects bound Value.IsWellFormed (e.eval call env) := by
  cases e with
  | literal value line => cases value <;> exact .noteLine (.pure trivial) _
  | var name line => exact .noteLine (.readVar env name) _
  | function name params body line => exact .noteLine (.closure env name h) _
  | call callee args line =>
    simp only [Expr.isWellFormed, Bool.and_eq_true, Bool.not_eq_true'] at h
    obtain ⟨⟨hcallee, hcode⟩, hargs⟩ := h
    refine .noteLine (.bind (Expr.eval_respects hcall env callee hcallee hcode) ?_) _
    intro callee hcallee
    exact .bind (evalList_respects hcall env args hargs) fun args hargs ↦
      hcall.callValue hcallee trivial hargs
  | object fields line =>
    exact .noteLine (.bind (evalFields_respects hcall env fields h) fun values hvalues ↦
      .objectLiteral _ hvalues) _
  | field receiver name line =>
    simp only [Expr.isWellFormed, Bool.and_eq_true, Bool.not_eq_true'] at h
    exact .noteLine (.bind (Expr.eval_respects hcall env receiver h.1 h.2) fun _ _ ↦
      .readField name) _
  | method receiver name args line =>
    simp only [Expr.isWellFormed, Bool.and_eq_true, Bool.not_eq_true'] at h
    obtain ⟨⟨hreceiver, hcode⟩, hargs⟩ := h
    refine .noteLine (.bind (Expr.eval_respects hcall env receiver hreceiver hcode) ?_) _
    intro receiver hreceiver
    refine .bind (.readField name) fun method hmethod ↦ ?_
    exact .bind (evalList_respects hcall env args hargs) fun args hargs ↦
      hcall.callValue hmethod hreceiver hargs
  | _ => cases hvalue

theorem evalList_respects (hcall : call.Respects) (env : Env) {names : List String}
    (es : List Expr) (h : valuesAreWellFormed names es = true) :
    Run.Respects bound (fun values ↦ ∀ value ∈ values, Value.IsWellFormed value)
      (evalList call env es) := by
  cases es with
  | nil => exact .pure (by simp)
  | cons e rest =>
    simp only [valuesAreWellFormed, Bool.and_eq_true, Bool.not_eq_true'] at h
    obtain ⟨⟨hvalue, he⟩, hrest⟩ := h
    refine .bind (Expr.eval_respects hcall env e hvalue he) fun value hvalue ↦ ?_
    refine .bind (evalList_respects hcall env rest hrest) fun values hvalues ↦ .pure ?_
    exact List.forall_mem_cons.mpr ⟨hvalue, hvalues⟩

theorem evalFields_respects (hcall : call.Respects) (env : Env) {names : List String}
    (fields : List (String × Expr)) (h : fieldsAreWellFormed names fields = true) :
    Run.Respects bound (fun values ↦ ∀ value ∈ values, Value.IsWellFormed value)
      (evalFields call env fields) := by
  cases fields with
  | nil => exact .pure (by simp)
  | cons field rest =>
    obtain ⟨key, e⟩ := field
    simp only [fieldsAreWellFormed, Bool.and_eq_true, Bool.not_eq_true'] at h
    obtain ⟨⟨hvalue, he⟩, hrest⟩ := h
    refine .bind (Expr.eval_respects hcall env e hvalue he) fun value hvalue ↦ ?_
    refine .bind (evalFields_respects hcall env rest hrest) fun values hvalues ↦ .pure ?_
    exact List.forall_mem_cons.mpr ⟨hvalue, hvalues⟩

end

/-- What an instruction gives, if it returns. -/
abbrev ResultIsWellFormed (result : Option Value) : Prop :=
  ∀ value, result = some value → value.IsWellFormed

mutual

theorem Expr.exec_respects (hcall : call.Respects) (env : Env)
    (hbound : ∀ name ∈ names, bound own name) (e : Expr) (h : e.isWellFormed names = true) :
    Run.Respects bound ResultIsWellFormed (e.exec call (own :: env)) := by
  have hnone : ResultIsWellFormed none := fun _ h ↦ by cases h
  cases e with
  | block body => exact .noteLine (Block.exec_respects hcall env hbound body h) _
  | assign name value declares line =>
    simp only [Expr.isWellFormed, Bool.and_eq_true, Bool.not_eq_true', decide_eq_true_eq] at h
    obtain ⟨⟨hname, hvalue⟩, hcode⟩ := h
    refine .noteLine (.bind (Expr.eval_respects hcall _ value hvalue hcode) ?_) _
    intro value hvalue
    exact .bind (.writeVar (hbound name hname) env hvalue declares) fun _ _ ↦ .pure hnone
  | setField receiver name value line =>
    simp only [Expr.isWellFormed, Bool.and_eq_true, Bool.not_eq_true'] at h
    obtain ⟨⟨⟨hreceiver, htarget⟩, hvalue⟩, hcode⟩ := h
    refine .noteLine (.bind (Expr.eval_respects hcall _ receiver hreceiver htarget) ?_) _
    intro receiver _
    refine .bind (Expr.eval_respects hcall _ value hvalue hcode) fun value hvalue ↦ ?_
    exact .bind (.writeField receiver name hvalue) fun _ _ ↦ .pure hnone
  | cond test onTrue onFalse line =>
    simp only [Expr.isWellFormed, Bool.and_eq_true, Bool.not_eq_true'] at h
    obtain ⟨⟨⟨htest, hdecision⟩, htrue⟩, hfalse⟩ := h
    refine .noteLine (.bind (Expr.eval_respects hcall _ test htest hdecision) fun value _ ↦ ?_) _
    split
    · exact Block.exec_respects hcall env hbound onFalse hfalse
    · exact Block.exec_respects hcall env hbound onTrue htrue
  | ret value line =>
    simp only [Expr.isWellFormed, Bool.and_eq_true, Bool.not_eq_true'] at h
    refine .noteLine (.bind (Expr.eval_respects hcall _ value h.1 h.2) fun value hvalue ↦ ?_) _
    exact .pure fun found hfound ↦ Option.some.inj hfound ▸ hvalue
  | _ => exact .noteLine (.pure hnone) _

theorem Block.exec_respects (hcall : call.Respects) (env : Env)
    (hbound : ∀ name ∈ names, bound own name) (body : Block)
    (h : body.isWellFormed names = true) :
    Run.Respects bound ResultIsWellFormed (body.exec call (own :: env)) := by
  cases body with
  | mk instrs line => exact execList_respects hcall env hbound instrs h

theorem execList_respects (hcall : call.Respects) (env : Env)
    (hbound : ∀ name ∈ names, bound own name) (es : List Expr)
    (h : instrsAreWellFormed names es = true) :
    Run.Respects bound ResultIsWellFormed (execList call (own :: env) es) := by
  cases es with
  | nil => exact .pure fun _ h ↦ by cases h
  | cons e rest =>
    simp only [instrsAreWellFormed, Bool.and_eq_true] at h
    unfold execList
    split
    · refine .bind (Expr.exec_respects hcall env hbound e h.1) fun result hresult ↦ ?_
      cases result with
      | some value => exact .pure hresult
      | none => exact execList_respects hcall env hbound rest h.2
    · next he =>
      refine .bind (Expr.eval_respects hcall _ e (Bool.eq_false_iff.mpr he) h.1) fun _ _ ↦ ?_
      exact execList_respects hcall env hbound rest h.2

end

/-- The body of a function respects scopes in an activation that has the variables of the
function. -/
theorem Block.evaluate_respects (hcall : call.Respects) (name : String) {params : List String}
    {body : Block} (h : body.isWellFormed (body.variables params) = true) (own : FrameId)
    (env : Env) :
    Run.Respects (bound.extend own (body.variables params)) Value.IsWellFormed
      (body.evaluate call name (own :: env)) := by
  have hbound : ∀ name ∈ body.variables params,
      bound.extend own (body.variables params) own name :=
    fun name hname ↦ .inr ⟨rfl, hname⟩
  have hbody := Block.exec_respects hcall env hbound body h
  refine .annotate (.bind hbody fun result hresult ↦ .pure ?_) (Failure.cause_noteFunction · name)
  cases result with
  | none => trivial
  | some value => exact hresult value rfl

theorem Function.evaluate_respects (hcall : call.Respects) (f : Function) {params : List String}
    {body : Block} (h : body.isWellFormed (body.variables params) = true) (env : Env)
    {receiver : Value} {args : List Value} (hreceiver : receiver.IsWellFormed)
    (hargs : ∀ arg ∈ args, Value.IsWellFormed arg) :
    Run.Respects bound Value.IsWellFormed (f.evaluate call params body env receiver args) := by
  unfold Function.evaluate
  split
  · exact .fail ⟨fun _ ↦ Cause.noConfusion, fun _ ↦ Cause.noConfusion⟩
  · next hlength =>
    have hbindings := Bindings.All.activation (P := Value.IsWellFormed) trivial hreceiver hargs
      params body.declared
    refine .activate hbindings (fun name hname ↦ Bindings.isSome_activation receiver body
      (Decidable.not_not.mp hlength) hname) fun own ↦ ?_
    have hreport : Run.Respects (bound.extend own (body.variables params)) _ _ :=
      .report fun st ↦ .closureCall f.name args.length st.depth
    have hbody := Run.Respects.bind hreport fun _ _ ↦ Block.evaluate_respects hcall f.name h own env
    simpa only [bind_assoc] using hbody

end Walk

/-! ## Runs -/

theorem Function.callWithin_respects (steps : Nat) : (Function.callWithin steps).Respects := by
  induction steps with
  | zero => exact fun _ _ _ _ _ _ _ _ _ ↦ trivial
  | succ steps ih =>
    intro bound f receiver args hf hreceiver hargs
    unfold Function.callWithin
    rcases hf with ⟨op, hbody⟩ | ⟨params, body, env, hbody, h⟩
    · simp only [hbody]
      exact .builtin op receiver args
    · simp only [hbody]
      exact .insideCall (Function.evaluate_respects ih f h env hreceiver hargs)

theorem RunState.new_wellScoped (config : Config) (level : Option Level) :
    (RunState.new config level).WellScoped fun _ _ ↦ False :=
  ⟨.new config level (fun op ↦ .inl ⟨op, rfl⟩) trivial, fun _ _ ↦ False.elim⟩

theorem Script.evaluate_respects {script : Script} (h : script.isWellFormed = true) (steps : Nat)
    {bound : Bound} :
    Run.Respects bound Value.IsWellFormed (script.evaluate (Function.callWithin steps)) := by
  have hbindings : (Bindings.activation .undefined [] [] script.body.declared).All
      Value.IsWellFormed := .activation trivial trivial (by simp) _ _
  refine .activate hbindings (fun name hname ↦ Bindings.isSome_activation .undefined script.body
    rfl hname) fun own ↦ .insideCall ?_
  exact Block.evaluate_respects (Function.callWithin_respects steps) "main" h own []

/-- If the compiler accepts a program, no run of it on the tree, under whatever limits, fails
because a name is unknown or because something is inconsistent. -/
theorem accepted_runs_respect_scopes {script : Script} {pool pool' : Pool} {main : Function}
    (haccepted : script.compile pool = .ok main pool') (config : Config) (level : Option Level)
    (steps : Nat) {failure : Failure} {st : RunState}
    (hrun : script.runOn .tree steps (.new config level) = .error (.failed failure) st) :
    (∀ name, failure.cause ≠ .undefinedVariable name) ∧
      ∀ detail, failure.cause ≠ .inconsistent detail := by
  have hwell := Script.isWellFormed_of_compile haccepted
  have hrespects := Script.evaluate_respects hwell steps _ (RunState.new_wellScoped config level)
  have hevaluate : script.evaluate (Function.callWithin steps) (.new config level) = _ := hrun
  unfold Ensures at hrespects
  rw [hevaluate] at hrespects
  exact hrespects

/-- A program that makes a closure, keeps it in an object and in a global name, and calls it when
the function it was made in has returned. The closure divides by zero. -/
def escapedClosure : Script :=
  .ofList [
    .lambda (some "make") ["start"] [
      .declare "count" (.read "start"),
      .returning (.lambda (some "next") ["by"] [
        .declare "step" (.applyGlobal "+" [.read "count", .read "by"]),
        .set "step" (.applyGlobal "/" [.read "step", .applyGlobal "-" [.read "by", .int 1]]),
        .returning (.read "step")])],
    .declare "box" (.objectOf [("next", .applyGlobal "make" [.int 4])]),
    .applyGlobal "next" [.int 3],
    .send (.read "box") "next" [.int 1]]

/-- The closure finds its variables, and the failure is its own. -/
theorem escapedClosure_respects_scopes : ∃ failure st,
    escapedClosure.runOn .tree 10 (.new {}) = .error (.failed failure) st ∧
      failure.cause = .divisionByZero ∧ (∀ name, failure.cause ≠ .undefinedVariable name) ∧
        ∀ detail, failure.cause ≠ .inconsistent detail := by
  have hcheck : escapedClosure.isAccepted none = true := by decide +kernel
  obtain ⟨main, pool, haccepted⟩ := Script.accepted_of_check hcheck {}
  have hfailed : failedWith (escapedClosure.runOn .tree 10 (.new {})) =
      some (.divisionByZero, 1) := by
    decide +kernel
  cases hrun : escapedClosure.runOn .tree 10 (.new {}) with
  | ok value st => simp [hrun, failedWith] at hfailed
  | error stop st =>
    cases stop with
    | unfinished => simp [hrun, failedWith] at hfailed
    | failed failure =>
      simp only [hrun, failedWith, Option.some.injEq, Prod.mk.injEq] at hfailed
      exact ⟨failure, st, rfl, hfailed.1,
        accepted_runs_respect_scopes haccepted.compiles {} none 10 hrun⟩

end TandemScript
