import TandemScript.Proofs.Bytecode
import TandemScript.Proofs.ScopedRuns

/-!
# Trusted values

A host may hand any value to a function, and a function of the host may answer with any value, as
long as the functions with code among them were compiled for the dictionary of the run. Such values
are trusted. A run that starts with trusted values only ever keeps trusted values: what the
evaluator makes itself has no code, and everything else is passed on. Two evaluators that differ in
how they call functions come to the same as long as their calls do so for trusted values.
-/

namespace TandemScript

/-! ## Values and states -/

/-- The compiler made the function for this dictionary, or for one that grew to it. -/
def Function.IsCompiledFor (dict : Dictionary) (f : Function) : Prop :=
  ∃ name params body enclosing pool pool', Pool.Numbered pool ∧
    Block.compileAs name params body enclosing pool = .ok f pool' ∧ pool'.dict.GrowsTo dict

/-- The compiled functions that a run may meet, by their numbers, and the dictionary that they were
compiled for. -/
structure Library where
  dict : Dictionary
  function? : Nat → Option Function
  undefined : dict.get? 0 = some .undefined
  number : ∀ id f, function? id = some f → f.id = id
  compiled : ∀ id f, function? id = some f → f.IsCompiledFor dict
  isShort : ∀ id f, function? id = some f → f.IsShort

/-- The library of some functions with numbers of their own. -/
def Library.of (dict : Dictionary) (functions : List Function)
    (hundefined : dict.get? 0 = some .undefined)
    (hcompiled : ∀ f ∈ functions, f.IsCompiledFor dict) (hshort : ∀ f ∈ functions, f.IsShort) :
    Library where
  dict
  function? id := functions.find? fun f ↦ f.id = id
  undefined := hundefined
  number _ _ hf := by simpa using List.find?_some hf
  compiled _ f hf := hcompiled f (List.mem_of_find?_eq_some hf)
  isShort _ f hf := hshort f (List.mem_of_find?_eq_some hf)

theorem Library.mem_of_function? {dict : Dictionary} {functions : List Function}
    {hundefined : dict.get? 0 = some .undefined}
    {hcompiled : ∀ f ∈ functions, f.IsCompiledFor dict} {hshort : ∀ f ∈ functions, f.IsShort}
    {id : Nat} {f : Function}
    (h : (Library.of dict functions hundefined hcompiled hshort).function? id = some f) :
    f ∈ functions :=
  List.mem_of_find?_eq_some h

/-- If the value is a function, then it is one of the library, or one without code, whose number no
function of the library has. -/
def Value.IsTrusted (lib : Library) (value : Value) : Prop :=
  ∀ f, value = .function f →
    lib.function? f.id = some f ∨ f.code? = none ∧ lib.function? f.id = none

/-- All values in the fields of the records are trusted. -/
def Records.AreTrusted (lib : Library) (records : Records) : Prop :=
  ∀ record ∈ records.cells, ∀ value ∈ record.fields, value.IsTrusted lib

/-- A function of the host that gets trusted values only answers with trusted values. -/
def Handler.IsTrusted (lib : Library) (respond : Handler) : Prop :=
  ∀ records receiver args, records.AreTrusted lib → receiver.IsTrusted lib →
    (∀ arg ∈ args, Value.IsTrusted lib arg) →
      (respond records receiver args).records.AreTrusted lib ∧
      ∀ value, (respond records receiver args).result = .ok value → value.IsTrusted lib

/-- A state of a run. Only trusted values are kept and were added to the dictionary, and new numbers
are those of no function of the library. -/
structure RunState.Trusted (lib : Library) (st : RunState) : Prop extends
    st.Stores (Value.IsTrusted lib) where
  grows : lib.dict.GrowsTo st.dict
  entries : ∀ index value, st.dict.get? index = some value → value.IsTrusted lib
  fresh : ∀ id, st.nextId ≤ id → lib.function? id = none
  hosts : ∀ respond ∈ st.hosts, Handler.IsTrusted lib respond

namespace Value.IsTrusted

variable {lib : Library}

theorem of_not_function {value : Value} (h : ∀ f, value ≠ .function f) : value.IsTrusted lib :=
  fun f hf ↦ absurd hf (h f)

theorem undefined : Value.undefined.IsTrusted lib :=
  of_not_function (by simp)

theorem int (n : Int32) : (Value.int n).IsTrusted lib :=
  of_not_function (by simp)

theorem str (s : String) : (Value.str s).IsTrusted lib :=
  of_not_function (by simp)

theorem record (id : RecordId) : (Value.record id).IsTrusted lib :=
  of_not_function (by simp)

theorem of_library {f : Function} (h : lib.function? f.id = some f) :
    (Value.function f).IsTrusted lib := by
  rintro _ ⟨⟩
  exact .inl h

/-- A trusted function with code is one of the library. -/
theorem library {f : Function} {code : Code} (h : (Value.function f).IsTrusted lib)
    (hcode : f.code? = some code) : lib.function? f.id = some f := by
  rcases h f rfl with hlib | ⟨hnone, -⟩
  · exact hlib
  · cases hnone.symm.trans hcode

/-- A trusted function with the number of a function of the library is this function. -/
theorem eq_of_id {f g : Function} (h : (Value.function g).IsTrusted lib)
    (hf : lib.function? f.id = some f) (hid : f.id = g.id) : g = f := by
  rw [hid] at hf
  rcases h g rfl with hlib | ⟨-, hnone⟩
  · exact Option.some.inj (hlib.symm.trans hf)
  · cases hnone.symm.trans hf

end Value.IsTrusted

/-! ## Computations that come to the same -/

section Coincide

variable {ε σ α β : Type} {x y : EStateM ε σ α} {f g : α → EStateM ε σ β} {s : σ}

/-- From the state both computations come to the same, and if this is a value, then it and the
state have a property. -/
def Coincide (x y : EStateM ε σ α) (s : σ) (P : α → σ → Prop) : Prop :=
  y s = x s ∧ Ensures x s P fun _ _ ↦ True

namespace Coincide

variable {P P' : α → σ → Prop} {Q : β → σ → Prop}

theorem of_ensures (h : Ensures x s P fun _ _ ↦ True) : Coincide x x s P :=
  ⟨rfl, h⟩

theorem mono (h : Coincide x y s P) (hP : ∀ a t, P a t → P' a t) : Coincide x y s P' :=
  ⟨h.1, h.2.mono hP fun _ _ h ↦ h⟩

theorem bind (hx : Coincide x y s P) (hf : ∀ a t, P a t → Coincide (f a) (g a) t Q) :
    Coincide (x >>= f) (y >>= g) s Q := by
  refine ⟨?_, hx.2.bind fun a t h ↦ (hf a t h).2⟩
  have hensures := hx.2
  unfold Ensures at hensures
  cases hresult : x s with
  | ok a t =>
    rw [hresult] at hensures
    rw [bind_of_ok hresult, bind_of_ok (hx.1.trans hresult)]
    exact (hf a t hensures).1
  | error e t => rw [bind_of_error hresult, bind_of_error (hx.1.trans hresult)]

end Coincide

end Coincide

/-- From every trusted state both computations come to the same, in a trusted state again. -/
def Run.Trusting {α : Type} (lib : Library) (P : α → Prop) (x y : Run α) : Prop :=
  ∀ st, st.Trusted lib → Coincide x y st fun a st' ↦ P a ∧ st'.Trusted lib

/-- Two ways of calling come to the same for trusted values. -/
def Caller.Trusting (lib : Library) (call call' : Caller) : Prop :=
  ∀ f receiver args, (Value.function f).IsTrusted lib → receiver.IsTrusted lib →
    (∀ arg ∈ args, Value.IsTrusted lib arg) →
      Run.Trusting lib (Value.IsTrusted lib) (call f receiver args) (call' f receiver args)

namespace Run.Trusting

variable {lib : Library} {α β : Type} {P : α → Prop} {Q : β → Prop} {x y : Run α}

/-- A computation that does not call anything. -/
theorem self (h : ∀ st, st.Trusted lib →
    Ensures x st (fun a st' ↦ P a ∧ st'.Trusted lib) fun _ _ ↦ True) : Trusting lib P x x :=
  fun st hst ↦ .of_ensures (h st hst)

theorem pure {a : α} (h : P a) : Trusting lib P (Pure.pure a) (Pure.pure a) :=
  self fun _ hst ↦ .pure ⟨h, hst⟩

theorem bind {f g : α → Run β} (hx : Trusting lib P x y)
    (hf : ∀ a, P a → Trusting lib Q (f a) (g a)) : Trusting lib Q (x >>= f) (y >>= g) :=
  fun st hst ↦ (hx st hst).bind fun a st' h ↦ hf a h.1 st' h.2

theorem fails {failure : RunState → Failure} :
    Trusting lib P (fun st ↦ .error (.failed (failure st)) st)
      (fun st ↦ .error (.failed (failure st)) st) :=
  self fun _ _ ↦ .of_error rfl trivial

theorem annotate (h : Trusting lib P x y) (note : Failure → Failure) :
    Trusting lib P (Run.annotate note x) (Run.annotate note y) := by
  intro st hst
  obtain ⟨hsame, hx⟩ := h st hst
  refine ⟨?_, .annotate hx⟩
  unfold Run.annotate
  rw [hsame]

theorem insideCall (h : Trusting lib P x y) :
    Trusting lib P (Run.insideCall x) (Run.insideCall y) := by
  intro st hst
  obtain ⟨hsame, hx⟩ := h { st with depth := st.depth + 1 } { hst with }
  refine ⟨Run.insideCall_congr fun _ ↦ hsame, .insideCall (fun _ ↦ ?_) fun _ ↦ trivial⟩
  exact hx.mono (fun _ _ h ↦ ⟨h.1, { h.2 with }⟩) fun _ _ _ ↦ trivial

/-! ## Operations of the evaluator -/

theorem readVar (env : Env) (name : String) :
    Trusting lib (Value.IsTrusted lib) (Run.readVar env name) (Run.readVar env name) := by
  refine self fun st hst ↦ ?_
  obtain ⟨value, hread, hvalue⟩ := hst.toStores.readVar .undefined env name
  exact .of_ok hread ⟨hvalue, hst⟩

theorem writeVar (env : Env) (name : String) {value : Value} (hvalue : value.IsTrusted lib)
    (declares : Bool) :
    Trusting lib (fun _ ↦ True) (Run.writeVar env name value declares)
      (Run.writeVar env name value declares) := by
  refine self fun st hst ↦ .writeVar (fun id _ ↦ ?_) fun _ ↦ trivial
  exact ⟨trivial, { hst with toStores := hst.toStores.bind id name hvalue }⟩

theorem readField (receiver : Value) (name : String) :
    Trusting lib (Value.IsTrusted lib) (Run.readField receiver name)
      (Run.readField receiver name) := by
  refine self fun st hst ↦ .readField (fun value hread ↦ ?_) trivial
  exact ⟨hst.toStores.readField .undefined hread, hst⟩

theorem setGlobal (name : String) {value : Value} (hvalue : value.IsTrusted lib) :
    Trusting lib (fun _ ↦ True) (Run.setGlobal name value) (Run.setGlobal name value) :=
  self fun _ hst ↦ ⟨trivial, { hst with toStores := hst.toStores.setGlobal name hvalue }⟩

theorem writeField (receiver : Value) (name : String) {value : Value}
    (hvalue : value.IsTrusted lib) :
    Trusting lib (fun _ ↦ True) (Run.writeField receiver name value)
      (Run.writeField receiver name value) := by
  refine self fun st hst ↦ .writeField (fun id slot ↦ ?_) ?_ trivial trivial
  · exact ⟨trivial, { hst with toStores := hst.toStores.setSlot id slot hvalue }⟩
  · exact ⟨trivial, { hst with toStores := hst.toStores.setGlobal name hvalue }⟩

/-- The function of a literal has no code. -/
theorem closure (env : Env) (name : Option String) (params : List String) (body : Block) :
    Trusting lib (Value.IsTrusted lib) (Run.closure env name params body)
      (Run.closure env name params body) := by
  have hfresh : Trusting lib (fun id ↦ lib.function? id = none) Run.freshId Run.freshId :=
    self fun st hst ↦ ⟨hst.fresh st.nextId (Nat.le_refl _),
      { hst with fresh := fun id hid ↦ hst.fresh id (Nat.le_of_succ_le hid) }⟩
  refine bind hfresh fun id hid ↦ ?_
  have hfunction : (Value.function
      ⟨id, name.getD Function.anonymous, .closure params body env⟩).IsTrusted lib := by
    rintro _ ⟨⟩
    exact .inr ⟨rfl, hid⟩
  cases name with
  | none => exact pure hfunction
  | some name => exact bind (setGlobal name hfunction) fun _ _ ↦ pure hfunction

theorem objectLiteral (keys : List String) {values : List Value}
    (hvalues : ∀ value ∈ values, value.IsTrusted lib) :
    Trusting lib (Value.IsTrusted lib) (Run.objectLiteral keys values)
      (Run.objectLiteral keys values) := by
  refine self fun st hst ↦ ?_
  obtain ⟨id, records, hliteral, hstores⟩ := hst.toStores.objectLiteral keys hvalues
  exact .of_ok hliteral ⟨.record id, { hst with toStores := hstores }⟩

theorem activate {bindings : Bindings} (hbindings : bindings.All (Value.IsTrusted lib)) :
    Trusting lib (fun _ ↦ True) (Run.activate bindings) (Run.activate bindings) :=
  self fun _ hst ↦ ⟨trivial, { hst with toStores := hst.toStores.addFrame hbindings }⟩

theorem report (event : RunState → Event) :
    Trusting lib (fun _ ↦ True) (do Run.report (event (← get)))
      (do Run.report (event (← get))) :=
  self fun _ hst ↦ ⟨trivial, { hst with }⟩

theorem builtin (op : Builtin) (receiver : Value) (args : List Value) :
    Trusting lib (Value.IsTrusted lib) (Native.call (.builtin op) receiver args)
      (Native.call (.builtin op) receiver args) := by
  refine self fun st hst ↦ .builtin (fun value output hcall ↦ ⟨?_, { hst with }⟩)
    fun _ _ _ ↦ trivial
  rcases Builtin.call_ok hcall with rfl | ⟨n, rfl⟩
  · exact .undefined
  · exact .int n

theorem host (handler : Nat) {receiver : Value} {args : List Value}
    (hreceiver : receiver.IsTrusted lib) (hargs : ∀ arg ∈ args, Value.IsTrusted lib arg) :
    Trusting lib (Value.IsTrusted lib) (Native.call (.host handler) receiver args)
      (Native.call (.host handler) receiver args) := by
  refine self fun st hst ↦ ?_
  unfold Ensures Native.call
  simp only
  cases hrespond : st.hosts[handler]? with
  | none => trivial
  | some respond =>
    obtain ⟨hrecords, hresult⟩ := hst.hosts respond (Array.mem_of_getElem? hrespond) st.records
      receiver args hst.records hreceiver hargs
    simp only
    cases hreply : (respond st.records receiver args).result with
    | ok value => exact ⟨hresult value hreply, { hst with records := hrecords }⟩
    | error failure => trivial

theorem native (op : Native) {receiver : Value} {args : List Value}
    (hreceiver : receiver.IsTrusted lib) (hargs : ∀ arg ∈ args, Value.IsTrusted lib arg) :
    Trusting lib (Value.IsTrusted lib) (op.call receiver args) (op.call receiver args) := by
  cases op with
  | builtin op => exact builtin op receiver args
  | host handler => exact host handler hreceiver hargs

end Run.Trusting

/-! ## The walk over the tree -/

section Walk

variable {lib : Library} {call call' : Caller}

theorem Caller.Trusting.callValue (hcall : call.Trusting lib call') {callee receiver : Value}
    {args : List Value} (hcallee : callee.IsTrusted lib) (hreceiver : receiver.IsTrusted lib)
    (hargs : ∀ arg ∈ args, Value.IsTrusted lib arg) :
    Run.Trusting lib (Value.IsTrusted lib) (Run.callValue call callee receiver args)
      (Run.callValue call' callee receiver args) := by
  cases callee with
  | function f => exact hcall f receiver args hcallee hreceiver hargs
  | _ => exact .fails

mutual

theorem Expr.eval_trusting (hcall : call.Trusting lib call') (env : Env) (e : Expr) :
    Run.Trusting lib (Value.IsTrusted lib) (e.eval call env) (e.eval call' env) := by
  cases e with
  | literal value line =>
    cases value with
    | int n => exact .annotate (.pure (.int n)) _
    | str s => exact .annotate (.pure (.str s)) _
  | var name line => exact .annotate (.readVar env name) _
  | function name params body line => exact .annotate (.closure env name params body) _
  | call callee args line =>
    refine .annotate (.bind (Expr.eval_trusting hcall env callee) fun callee hcallee ↦ ?_) _
    exact .bind (evalList_trusting hcall env args) fun args hargs ↦
      hcall.callValue hcallee .undefined hargs
  | object fields line =>
    exact .annotate (.bind (evalFields_trusting hcall env fields) fun values hvalues ↦
      .objectLiteral _ hvalues) _
  | field receiver name line =>
    exact .annotate (.bind (Expr.eval_trusting hcall env receiver) fun receiver _ ↦
      .readField receiver name) _
  | method receiver name args line =>
    refine .annotate (.bind (Expr.eval_trusting hcall env receiver) fun receiver hreceiver ↦ ?_) _
    refine .bind (.readField receiver name) fun method hmethod ↦ ?_
    exact .bind (evalList_trusting hcall env args) fun args hargs ↦
      hcall.callValue hmethod hreceiver hargs
  | _ => exact .annotate .fails _

theorem evalList_trusting (hcall : call.Trusting lib call') (env : Env) (es : List Expr) :
    Run.Trusting lib (fun values ↦ ∀ value ∈ values, Value.IsTrusted lib value)
      (evalList call env es) (evalList call' env es) := by
  cases es with
  | nil => exact .pure (by simp)
  | cons e rest =>
    refine .bind (Expr.eval_trusting hcall env e) fun value hvalue ↦ ?_
    refine .bind (evalList_trusting hcall env rest) fun values hvalues ↦ .pure ?_
    exact List.forall_mem_cons.mpr ⟨hvalue, hvalues⟩

theorem evalFields_trusting (hcall : call.Trusting lib call') (env : Env)
    (fields : List (String × Expr)) :
    Run.Trusting lib (fun values ↦ ∀ value ∈ values, Value.IsTrusted lib value)
      (evalFields call env fields) (evalFields call' env fields) := by
  cases fields with
  | nil => exact .pure (by simp)
  | cons field rest =>
    refine .bind (Expr.eval_trusting hcall env field.2) fun value hvalue ↦ ?_
    refine .bind (evalFields_trusting hcall env rest) fun values hvalues ↦ .pure ?_
    exact List.forall_mem_cons.mpr ⟨hvalue, hvalues⟩

end

/-- What an instruction gives, if it returns, is trusted. -/
abbrev ResultIsTrusted (lib : Library) (result : Option Value) : Prop :=
  ∀ value, result = some value → value.IsTrusted lib

mutual

theorem Expr.exec_trusting (hcall : call.Trusting lib call') (env : Env) (e : Expr) :
    Run.Trusting lib (ResultIsTrusted lib) (e.exec call env) (e.exec call' env) := by
  have hnone : ResultIsTrusted lib none := fun _ h ↦ by cases h
  cases e with
  | block body => exact .annotate (Block.exec_trusting hcall env body) _
  | assign name value declares line =>
    refine .annotate (.bind (Expr.eval_trusting hcall env value) fun value hvalue ↦ ?_) _
    exact .bind (.writeVar env name hvalue declares) fun _ _ ↦ .pure hnone
  | setField receiver name value line =>
    refine .annotate (.bind (Expr.eval_trusting hcall env receiver) fun receiver _ ↦ ?_) _
    refine .bind (Expr.eval_trusting hcall env value) fun value hvalue ↦ ?_
    exact .bind (.writeField receiver name hvalue) fun _ _ ↦ .pure hnone
  | cond test onTrue onFalse line =>
    refine .annotate (.bind (Expr.eval_trusting hcall env test) fun value _ ↦ ?_) _
    split
    · exact Block.exec_trusting hcall env onFalse
    · exact Block.exec_trusting hcall env onTrue
  | ret value line =>
    refine .annotate (.bind (Expr.eval_trusting hcall env value) fun value hvalue ↦ .pure ?_) _
    rintro _ ⟨⟩
    exact hvalue
  | _ => exact .annotate (.pure hnone) _

theorem Block.exec_trusting (hcall : call.Trusting lib call') (env : Env) (body : Block) :
    Run.Trusting lib (ResultIsTrusted lib) (body.exec call env) (body.exec call' env) := by
  cases body with
  | mk instrs line => exact execList_trusting hcall env instrs

theorem execList_trusting (hcall : call.Trusting lib call') (env : Env) (es : List Expr) :
    Run.Trusting lib (ResultIsTrusted lib) (execList call env es) (execList call' env es) := by
  cases es with
  | nil => exact .pure fun _ h ↦ by cases h
  | cons e rest =>
    unfold execList
    split
    · refine .bind (Expr.exec_trusting hcall env e) fun result hresult ↦ ?_
      cases result with
      | some value => exact .pure hresult
      | none => exact execList_trusting hcall env rest
    · exact .bind (Expr.eval_trusting hcall env e) fun _ _ ↦ execList_trusting hcall env rest

end

theorem Block.evaluate_trusting (hcall : call.Trusting lib call') (name : String) (body : Block)
    (env : Env) :
    Run.Trusting lib (Value.IsTrusted lib) (body.evaluate call name env)
      (body.evaluate call' name env) := by
  refine .annotate (.bind (Block.exec_trusting hcall env body) fun result hresult ↦ .pure ?_) _
  cases result with
  | none => exact .undefined
  | some value => exact hresult value rfl

theorem Function.evaluate_trusting (hcall : call.Trusting lib call') (f : Function)
    (params : List String) (body : Block) (env : Env) {receiver : Value} {args : List Value}
    (hreceiver : receiver.IsTrusted lib) (hargs : ∀ arg ∈ args, Value.IsTrusted lib arg) :
    Run.Trusting lib (Value.IsTrusted lib) (f.evaluate call params body env receiver args)
      (f.evaluate call' params body env receiver args) := by
  unfold Function.evaluate
  split
  · exact .fails
  · have hbindings := Bindings.All.activation .undefined hreceiver hargs params body.declared
    refine .bind (.activate hbindings) fun frame _ ↦ ?_
    have hbody := Block.evaluate_trusting hcall f.name body (frame :: env)
    have hreport : Run.Trusting lib _ _ _ :=
      .report fun st ↦ .closureCall f.name args.length st.depth
    simpa only [bind_assoc] using hreport.bind fun _ _ ↦ hbody

theorem Script.evaluate_trusting (hcall : call.Trusting lib call') (script : Script) :
    Run.Trusting lib (Value.IsTrusted lib) (script.evaluate call) (script.evaluate call') := by
  refine .bind (.activate ?_) fun frame _ ↦
    .insideCall (Block.evaluate_trusting hcall "main" script.body [frame])
  exact Bindings.All.activation .undefined .undefined (by simp) [] script.body.declared

end Walk

end TandemScript
