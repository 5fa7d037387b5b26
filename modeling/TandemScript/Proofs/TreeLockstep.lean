import TandemScript.Proofs.Lockstep

/-!
# Evaluating trees in lockstep

A relation between states of runs that the operations of the tree evaluator keep, and two ways of
calling that are in lockstep for it, make the whole evaluator run in lockstep. The operations are
gathered in `TreeLaws`; the walk over the tree is done once, for every such relation. Entering and
leaving a call are apart, in `CallLaws`, since they change how deeply calls nest.
-/

namespace TandemScript

variable {waived : Stop → Prop} {R : RunState → RunState → Prop}

/-- The operations of the tree evaluator keep a relation between states. -/
structure TreeLaws (waived : Stop → Prop) (R : RunState → RunState → Prop) : Prop where
  noteLine : ∀ stop line, waived stop → waived (stop.mapFailure (·.noteLine line))
  noteFunction : ∀ stop name, waived stop → waived (stop.mapFailure (·.noteFunction name))
  fail : ∀ {α : Type} (failure : Failure),
    Lockstep waived R (Run.fail failure : Run α) (Run.fail failure)
  notA : ∀ {α : Type} (expected : String) (found : Value),
    Lockstep waived R (fun st ↦ .error (.failed (.notA expected st.records found)) st : Run α)
      (fun st ↦ .error (.failed (.notA expected st.records found)) st)
  readVar : ∀ env name, Lockstep waived R (Run.readVar env name) (Run.readVar env name)
  writeVar : ∀ env name value declares,
    Lockstep waived R (Run.writeVar env name value declares) (Run.writeVar env name value declares)
  readField : ∀ receiver name,
    Lockstep waived R (Run.readField receiver name) (Run.readField receiver name)
  writeField : ∀ receiver name value,
    Lockstep waived R (Run.writeField receiver name value) (Run.writeField receiver name value)
  freshId : Lockstep waived R Run.freshId Run.freshId
  setGlobal : ∀ name value,
    Lockstep waived R (Run.setGlobal name value) (Run.setGlobal name value)
  newRecord : ∀ record, Lockstep waived R (Run.newRecord record) (Run.newRecord record)
  activate : ∀ bindings, Lockstep waived R (Run.activate bindings) (Run.activate bindings)
  report : ∀ event : RunState → Event,
    Lockstep waived R (do Run.report (event (← get))) (do Run.report (event (← get)))

/-- Entering and leaving a call keep a relation between states. -/
structure CallLaws (waived : Stop → Prop) (R : RunState → RunState → Prop) : Prop where
  beginCall : Lockstep waived R Run.beginCall Run.beginCall
  leaveCall : ∀ st st', R st st' →
    R { st with depth := st.depth - 1 } { st' with depth := st'.depth - 1 }

/-- Two ways of calling are in lockstep at every function, receiver and list of arguments. -/
def Caller.Lockstep (waived : Stop → Prop) (R : RunState → RunState → Prop)
    (call call' : Caller) : Prop :=
  ∀ f receiver args, TandemScript.Lockstep waived R (call f receiver args) (call' f receiver args)

theorem Lockstep.annotate {α : Type} {x y : Run α} {note : Failure → Failure}
    (hnote : ∀ stop, waived stop → waived (stop.mapFailure note)) (h : Lockstep waived R x y) :
    Lockstep waived R (Run.annotate note x) (Run.annotate note y) := by
  intro st st' hst
  unfold Run.annotate
  rcases (h st st' hst).cases with
    ⟨a, t, t', hx, hy, hR⟩ | ⟨stop, t, t', hx, hy, hR⟩ | ⟨stop, t, hx, hwaived⟩
  · rw [hx, hy]
    exact Follows.of_ok hR
  · rw [hx, hy]
    exact Follows.of_error hR
  · rw [hx]
    exact Follows.of_waived (hnote stop hwaived)

theorem CallLaws.insideCall (laws : CallLaws waived R) {α : Type} {x y : Run α}
    (h : Lockstep waived R x y) : Lockstep waived R (Run.insideCall x) (Run.insideCall y) := by
  refine Lockstep.bind laws.beginCall fun _ ↦ ?_
  intro st st' hst
  rcases (h st st' hst).cases with
    ⟨a, t, t', hx, hy, hR⟩ | ⟨stop, t, t', hx, hy, hR⟩ | ⟨stop, t, hx, hwaived⟩
  · simp only [hx, hy]
    exact Follows.of_ok (laws.leaveCall t t' hR)
  · simp only [hx, hy]
    exact Follows.of_error (laws.leaveCall t t' hR)
  · simp only [hx]
    exact Follows.of_waived hwaived

namespace TreeLaws

variable {call call' : Caller}

theorem closure (laws : TreeLaws waived R) (env : Env) (name : Option String)
    (params : List String) (body : Block) :
    Lockstep waived R (Run.closure env name params body) (Run.closure env name params body) := by
  refine Lockstep.bind laws.freshId fun id ↦ ?_
  cases name with
  | none => exact Lockstep.pure _
  | some name => exact Lockstep.bind (laws.setGlobal name _) fun _ ↦ Lockstep.pure _

theorem callValue (laws : TreeLaws waived R) (hcall : Caller.Lockstep waived R call call')
    (callee receiver : Value) (args : List Value) :
    Lockstep waived R (Run.callValue call callee receiver args)
      (Run.callValue call' callee receiver args) := by
  cases callee with
  | function f => exact hcall f receiver args
  | _ => exact laws.notA _ _

mutual

theorem eval (laws : TreeLaws waived R) (hcall : Caller.Lockstep waived R call call')
    (env : Env) (e : Expr) : Lockstep waived R (e.eval call env) (e.eval call' env) := by
  cases e with
  | literal value line =>
    cases value <;> exact Lockstep.annotate (laws.noteLine · _) (Lockstep.pure _)
  | var name line => exact Lockstep.annotate (laws.noteLine · _) (laws.readVar env name)
  | function name params body line =>
    exact Lockstep.annotate (laws.noteLine · _) (laws.closure env name params body)
  | call callee args line =>
    refine Lockstep.annotate (laws.noteLine · _) ?_
    refine Lockstep.bind (eval laws hcall env callee) fun callee ↦ ?_
    exact Lockstep.bind (evalList laws hcall env args) fun args ↦ laws.callValue hcall _ _ _
  | object fields line =>
    refine Lockstep.annotate (laws.noteLine · _) ?_
    exact Lockstep.bind (evalFields laws hcall env fields) fun values ↦ laws.newRecord _
  | field receiver name line =>
    refine Lockstep.annotate (laws.noteLine · _) ?_
    exact Lockstep.bind (eval laws hcall env receiver) fun receiver ↦ laws.readField receiver name
  | method receiver name args line =>
    refine Lockstep.annotate (laws.noteLine · _) ?_
    refine Lockstep.bind (eval laws hcall env receiver) fun receiver ↦ ?_
    refine Lockstep.bind (laws.readField receiver name) fun method ↦ ?_
    exact Lockstep.bind (evalList laws hcall env args) fun args ↦ laws.callValue hcall _ _ _
  | _ => exact Lockstep.annotate (laws.noteLine · _) (laws.fail _)

theorem evalList (laws : TreeLaws waived R) (hcall : Caller.Lockstep waived R call call')
    (env : Env) (es : List Expr) :
    Lockstep waived R (TandemScript.evalList call env es) (TandemScript.evalList call' env es) := by
  cases es with
  | nil => exact Lockstep.pure _
  | cons e rest =>
    refine Lockstep.bind (eval laws hcall env e) fun value ↦ ?_
    exact Lockstep.bind (evalList laws hcall env rest) fun values ↦ Lockstep.pure _

theorem evalFields (laws : TreeLaws waived R) (hcall : Caller.Lockstep waived R call call')
    (env : Env) (fields : List (String × Expr)) :
    Lockstep waived R (TandemScript.evalFields call env fields)
      (TandemScript.evalFields call' env fields) := by
  cases fields with
  | nil => exact Lockstep.pure _
  | cons field rest =>
    obtain ⟨key, e⟩ := field
    refine Lockstep.bind (eval laws hcall env e) fun value ↦ ?_
    exact Lockstep.bind (evalFields laws hcall env rest) fun values ↦ Lockstep.pure _

end

mutual

theorem exec (laws : TreeLaws waived R) (hcall : Caller.Lockstep waived R call call')
    (env : Env) (e : Expr) : Lockstep waived R (e.exec call env) (e.exec call' env) := by
  cases e with
  | block body => exact Lockstep.annotate (laws.noteLine · _) (execBlock laws hcall env body)
  | assign name value declares line =>
    refine Lockstep.annotate (laws.noteLine · _) ?_
    refine Lockstep.bind (laws.eval hcall env value) fun value ↦ ?_
    exact Lockstep.bind (laws.writeVar env name value declares) fun _ ↦ Lockstep.pure _
  | setField receiver name value line =>
    refine Lockstep.annotate (laws.noteLine · _) ?_
    refine Lockstep.bind (laws.eval hcall env receiver) fun receiver ↦ ?_
    refine Lockstep.bind (laws.eval hcall env value) fun value ↦ ?_
    exact Lockstep.bind (laws.writeField receiver name value) fun _ ↦ Lockstep.pure _
  | cond test onTrue onFalse line =>
    refine Lockstep.annotate (laws.noteLine · _) ?_
    refine Lockstep.bind (laws.eval hcall env test) fun value ↦ ?_
    split
    · exact execBlock laws hcall env onFalse
    · exact execBlock laws hcall env onTrue
  | ret value line =>
    refine Lockstep.annotate (laws.noteLine · _) ?_
    exact Lockstep.bind (laws.eval hcall env value) fun value ↦ Lockstep.pure _
  | _ => exact Lockstep.annotate (laws.noteLine · _) (Lockstep.pure _)

theorem execBlock (laws : TreeLaws waived R) (hcall : Caller.Lockstep waived R call call')
    (env : Env) (body : Block) : Lockstep waived R (body.exec call env) (body.exec call' env) := by
  cases body with
  | mk instrs line => exact execList laws hcall env instrs

theorem execList (laws : TreeLaws waived R) (hcall : Caller.Lockstep waived R call call')
    (env : Env) (es : List Expr) :
    Lockstep waived R (TandemScript.execList call env es) (TandemScript.execList call' env es) := by
  cases es with
  | nil => exact Lockstep.pure _
  | cons e rest =>
    unfold TandemScript.execList
    split
    · refine Lockstep.bind (exec laws hcall env e) fun result ↦ ?_
      cases result with
      | some value => exact Lockstep.pure _
      | none => exact execList laws hcall env rest
    · exact Lockstep.bind (laws.eval hcall env e) fun _ ↦ execList laws hcall env rest

end

theorem evaluateBody (laws : TreeLaws waived R) (hcall : Caller.Lockstep waived R call call')
    (name : String) (body : Block) (env : Env) :
    Lockstep waived R (body.evaluate call name env) (body.evaluate call' name env) := by
  refine Lockstep.annotate (laws.noteFunction · name) ?_
  exact Lockstep.bind (laws.execBlock hcall env body) fun result ↦ Lockstep.pure _

theorem evaluateFunction (laws : TreeLaws waived R) (hcall : Caller.Lockstep waived R call call')
    (f : Function) (params : List String) (body : Block) (env : Env) (receiver : Value)
    (args : List Value) :
    Lockstep waived R (f.evaluate call params body env receiver args)
      (f.evaluate call' params body env receiver args) := by
  unfold Function.evaluate
  split
  · exact laws.fail _
  · refine Lockstep.bind (laws.activate _) fun frame ↦ ?_
    have hreport := laws.report fun st ↦ .closureCall f.name args.length st.depth
    have hbody := Lockstep.bind hreport fun _ ↦ laws.evaluateBody hcall f.name body (frame :: env)
    simpa only [bind_assoc] using hbody

theorem evaluateScript (laws : TreeLaws waived R) (calls : CallLaws waived R)
    (hcall : Caller.Lockstep waived R call call') (script : Script) :
    Lockstep waived R (script.evaluate call) (script.evaluate call') := by
  refine Lockstep.bind (laws.activate _) fun frame ↦ ?_
  exact calls.insideCall (laws.evaluateBody hcall "main" script.body [frame])

end TreeLaws

end TandemScript
