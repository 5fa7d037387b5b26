import TandemScript.Proofs.Trusted

/-!
# Recorded evaluation

The tree evaluator with a record of the functions that literals gave, from first to last. Apart from
the record it is the same evaluator. Every evaluation of a literal takes the next number, and
nothing else takes one, so that the numbers of the functions count the evaluations.
-/

namespace TandemScript

/-! ## Numbers -/

/-- The computation uses up no number. -/
def Run.KeepsNumbers {α : Type} (x : Run α) : Prop :=
  ∀ st, (finalState (x st)).nextId = st.nextId

namespace Run.KeepsNumbers

theorem fail {α : Type} (failure : RunState → Failure) :
    KeepsNumbers (fun st ↦ .error (.failed (failure st)) st : Run α) :=
  fun _ ↦ rfl

theorem readVar (env : Env) (name : String) : KeepsNumbers (Run.readVar env name) := by
  intro st
  unfold Run.readVar
  split <;> rfl

theorem writeVar (env : Env) (name : String) (value : Value) (declares : Bool) :
    KeepsNumbers (Run.writeVar env name value declares) := by
  intro st
  rw [Run.writeVar_apply]
  split <;> rfl

theorem readField (receiver : Value) (name : String) :
    KeepsNumbers (Run.readField receiver name) := by
  intro st
  unfold Run.readField
  split <;> rfl

theorem writeField (receiver : Value) (name : String) (value : Value) :
    KeepsNumbers (Run.writeField receiver name value) := by
  intro st
  cases receiver with
  | record id =>
    rw [Run.writeField_record]
    split <;> rfl
  | _ => rfl

theorem objectLiteral (keys : List String) (values : List Value) :
    KeepsNumbers (Run.objectLiteral keys values) :=
  fun _ ↦ rfl

theorem activate (bindings : Bindings) : KeepsNumbers (Run.activate bindings) :=
  fun _ ↦ rfl

theorem report (event : RunState → Event) :
    KeepsNumbers (do Run.report (event (← get))) :=
  fun _ ↦ rfl

theorem beginCall : KeepsNumbers Run.beginCall := by
  intro st
  unfold Run.beginCall
  split <;> rfl

theorem native (op : Native) (receiver : Value) (args : List Value) :
    KeepsNumbers (op.call receiver args) := by
  intro st
  cases op with
  | builtin op =>
    rw [Native.call_builtin]
    split <;> rfl
  | host handler =>
    unfold Native.call
    simp only
    split
    · rfl
    · split <;> rfl

end Run.KeepsNumbers

/-! ## Recorded computations -/

/-- The state of a run, with the functions that literals gave so far. -/
structure Recording where
  run : RunState
  made : List Function

abbrev Recorded := EStateM Stop Recording

/-- A way of calling a function. -/
abbrev RecordedCaller := Function → Value → List Value → Recorded Value

/-- Put a function at the end of the record. -/
def Recording.note (s : Recording) : Value → Recording
  | .function f => { s with made := s.made ++ [f] }
  | _ => s

namespace Recorded

variable {α : Type}

/-- A computation that evaluates no literals. -/
def lift (x : Run α) : Recorded α := fun s ↦
  match x s.run with
  | .ok a st => .ok a { s with run := st }
  | .error stop st => .error stop { s with run := st }

/-- The evaluation of a literal. -/
def literal (x : Run Value) : Recorded Value := do
  let value ← lift x
  modify (·.note value)
  return value

def annotate (f : Failure → Failure) (x : Recorded α) : Recorded α := fun s ↦
  match x s with
  | .error stop s => .error (stop.mapFailure f) s
  | .ok a s => .ok a s

/-- A computation inside a call. -/
def insideCall (x : Recorded α) : Recorded α := do
  lift Run.beginCall
  fun s ↦
    match x s with
    | .ok a s => .ok a { s with run := { s.run with depth := s.run.depth - 1 } }
    | .error stop s => .error stop { s with run := { s.run with depth := s.run.depth - 1 } }

/-- Call a value, which has to be a function. -/
def callValue (call : RecordedCaller) (callee receiver : Value) (args : List Value) :
    Recorded Value :=
  match callee with
  | .function f => call f receiver args
  | other => lift fun st ↦ .error (.failed (.notA "function" st.records other)) st

end Recorded

/-! ## The evaluator -/

mutual

/-- The value of a node. -/
def Expr.evalRecorded (call : RecordedCaller) (env : Env) (e : Expr) : Recorded Value :=
  Recorded.annotate (·.noteLine e.line) <| match e with
  | .literal (.int n) _ => return .int n
  | .literal (.str s) _ => return .str s
  | .var name _ => Recorded.lift (Run.readVar env name)
  | .function name params body _ => Recorded.literal (Run.closure env name params body)
  | .call callee args _ => do
    let callee ← callee.evalRecorded call env
    let args ← evalListRecorded call env args
    Recorded.callValue call callee .undefined args
  | .object fields _ => do
    let values ← evalFieldsRecorded call env fields
    Recorded.lift (Run.objectLiteral (fields.map Prod.fst) values)
  | .field receiver name _ => do
    let receiver ← receiver.evalRecorded call env
    Recorded.lift (Run.readField receiver name)
  | .method receiver name args _ => do
    let receiver ← receiver.evalRecorded call env
    let method ← Recorded.lift (Run.readField receiver name)
    let args ← evalListRecorded call env args
    Recorded.callValue call method receiver args
  | .block _ | .assign .. | .setField .. | .cond .. | .ret .. =>
    Recorded.lift (Run.fail (.inconsistent .instructionAsValue))

/-- Do what an instruction says. -/
def Expr.execRecorded (call : RecordedCaller) (env : Env) (e : Expr) : Recorded (Option Value) :=
  Recorded.annotate (·.noteLine e.line) <| match e with
  | .block body => body.execRecorded call env
  | .assign name value declares _ => do
    let value ← value.evalRecorded call env
    Recorded.lift (Run.writeVar env name value declares)
    return none
  | .setField receiver name value _ => do
    let receiver ← receiver.evalRecorded call env
    let value ← value.evalRecorded call env
    Recorded.lift (Run.writeField receiver name value)
    return none
  | .cond test onTrue onFalse _ => do
    let value ← test.evalRecorded call env
    if value.isFalse then onFalse.execRecorded call env else onTrue.execRecorded call env
  | .ret value _ => do
    let value ← value.evalRecorded call env
    return some value
  | _ => return none

/-- Execute a block. -/
def Block.execRecorded (call : RecordedCaller) (env : Env) : Block → Recorded (Option Value)
  | .mk instrs _ => execListRecorded call env instrs

/-- Execute nodes in order until one returns. -/
def execListRecorded (call : RecordedCaller) (env : Env) : List Expr → Recorded (Option Value)
  | [] => return none
  | e :: rest => do
    if e.isInstruction then
      match ← e.execRecorded call env with
      | some result => return some result
      | none => execListRecorded call env rest
    else
      let _ ← e.evalRecorded call env
      execListRecorded call env rest

/-- The values of some nodes, from left to right. -/
def evalListRecorded (call : RecordedCaller) (env : Env) : List Expr → Recorded (List Value)
  | [] => return []
  | e :: rest => do
    let value ← e.evalRecorded call env
    let values ← evalListRecorded call env rest
    return value :: values

/-- The values of the initializers of an object literal. -/
def evalFieldsRecorded (call : RecordedCaller) (env : Env) :
    List (String × Expr) → Recorded (List Value)
  | [] => return []
  | (_, e) :: rest => do
    let value ← e.evalRecorded call env
    let values ← evalFieldsRecorded call env rest
    return value :: values

end

/-- Execute the body of a function in a new activation. -/
def Block.evaluateRecorded (call : RecordedCaller) (name : String) (body : Block) (env : Env) :
    Recorded Value :=
  Recorded.annotate (·.noteFunction name) do
    let result ← body.execRecorded call env
    return result.getD .undefined

/-- Call a function literal with the activations it was written in. -/
def Function.evaluateRecorded (call : RecordedCaller) (f : Function) (params : List String)
    (body : Block) (env : Env) (receiver : Value) (args : List Value) : Recorded Value := do
  if args.length ≠ params.length then
    Recorded.lift (Run.fail ⟨.arityMismatch f.name params.length args.length, {}⟩)
  else do
    let frame ← Recorded.lift (Run.activate (.activation receiver params args body.declared))
    Recorded.lift (do Run.report (.closureCall f.name args.length (← get).depth))
    body.evaluateRecorded call f.name (frame :: env)

/-- Evaluate a program, as the body of a function `main` without a receiver. -/
def Script.evaluateRecorded (call : RecordedCaller) (script : Script) : Recorded Value := do
  let frame ← Recorded.lift (Run.activate (.activation .undefined [] [] script.body.declared))
  Recorded.insideCall (script.body.evaluateRecorded call "main" [frame])

/-- Call a function. A run on the tree does not meet compiled ones. -/
def Function.callRecorded : (steps : Nat) → RecordedCaller
  | 0 => fun _ _ _ ↦ Recorded.lift fun st ↦ .error .unfinished st
  | steps + 1 => fun f receiver args ↦
    match f.body with
    | .native op => Recorded.lift (op.call receiver args)
    | .closure params body env =>
      Recorded.insideCall
        (f.evaluateRecorded (Function.callRecorded steps) params body env receiver args)
    | .bytecode _ => Recorded.lift fun st ↦ .error .unfinished st

/-- Call a function, but cut the run off at compiled ones. -/
def Function.callOnTree : (steps : Nat) → Caller
  | 0 => fun _ _ _ st ↦ .error .unfinished st
  | steps + 1 => fun f receiver args ↦
    match f.body with
    | .native op => op.call receiver args
    | .closure params body env =>
      Run.insideCall (f.evaluate (Function.callOnTree steps) params body env receiver args)
    | .bytecode _ => fun st ↦ .error .unfinished st

/-! ## Erasure -/

/-- What a recorded computation comes to without the record. -/
def erased {α : Type} : EStateM.Result Stop Recording α → EStateM.Result Stop RunState α
  | .ok a s => .ok a s.run
  | .error stop s => .error stop s.run

theorem finalState_erased {α : Type} (result : EStateM.Result Stop Recording α) :
    finalState (erased result) = (finalState result).run := by
  cases result <;> rfl

/-- The record has a function for each number from the first one on, in this order. -/
structure Recording.Counts (first : Nat) (s : Recording) : Prop where
  id : ∀ i f, s.made[i]? = some f → f.id = first + i
  nextId : s.run.nextId = first + s.made.length

theorem Recording.Counts.withRun {first : Nat} {s : Recording} (h : s.Counts first) {st : RunState}
    (hnext : st.nextId = s.run.nextId) : Recording.Counts first { s with run := st } :=
  ⟨h.id, hnext.trans h.nextId⟩

/-- One more function has taken the next number. -/
theorem Recording.Counts.add {first : Nat} {s : Recording} (h : s.Counts first) {f : Function}
    (hf : f.id = s.run.nextId) {st : RunState} (hnext : st.nextId = s.run.nextId + 1) :
    Recording.Counts first ⟨st, s.made ++ [f]⟩ where
  id i g hg := by
    rw [List.getElem?_append] at hg
    split at hg
    · exact h.id i g hg
    · next hlast =>
      obtain ⟨hzero, rfl⟩ : i - s.made.length = 0 ∧ f = g := by
        simpa [List.getElem?_singleton] using hg
      rw [hf, h.nextId]
      omega
  nextId := by
    simp only [hnext, h.nextId, List.length_append, List.length_singleton]
    rfl

/-- Apart from the record the first computation comes to the same as the second one, and with the
numbers that it takes the record goes on to count. -/
def Recorded.Erases {α : Type} (x : Recorded α) (y : Run α) : Prop :=
  ∀ first s, s.Counts first → y s.run = erased (x s) ∧ (finalState (x s)).Counts first

/-- Calls come to the same. -/
def RecordedCaller.Erases (call : RecordedCaller) (call' : Caller) : Prop :=
  ∀ f receiver args, Recorded.Erases (call f receiver args) (call' f receiver args)

namespace Recorded.Erases

variable {α β : Type}

theorem pure (a : α) : Erases (Pure.pure a) (Pure.pure a) :=
  fun _ _ hs ↦ ⟨rfl, hs⟩

theorem bind {x : Recorded α} {y : Run α} {f : α → Recorded β} {g : α → Run β} (hx : x.Erases y)
    (hf : ∀ a, (f a).Erases (g a)) : (x >>= f).Erases (y >>= g) := by
  intro first s hs
  obtain ⟨hsame, hcounts⟩ := hx first s hs
  cases hresult : x s with
  | ok a t =>
    rw [hresult] at hsame hcounts
    rw [bind_of_ok hresult, bind_of_ok hsame]
    exact hf a first t hcounts
  | error stop t =>
    rw [hresult] at hsame hcounts
    rw [bind_of_error hresult, bind_of_error hsame]
    exact ⟨rfl, hcounts⟩

theorem lift {x : Run α} (h : x.KeepsNumbers) : (Recorded.lift x).Erases x := by
  intro first s hs
  have hnext := h s.run
  unfold Recorded.lift
  cases hresult : x s.run with
  | ok a st =>
    rw [hresult] at hnext
    exact ⟨rfl, hs.withRun hnext⟩
  | error stop st =>
    rw [hresult] at hnext
    exact ⟨rfl, hs.withRun hnext⟩

/-- The function of a literal takes the next number. -/
theorem literal (env : Env) (name : Option String) (params : List String) (body : Block) :
    (Recorded.literal (Run.closure env name params body)).Erases
      (Run.closure env name params body) := by
  intro first s hs
  let f : Function := ⟨s.run.nextId, name.getD Function.anonymous, .closure params body env⟩
  obtain ⟨st, hclosure, hnext⟩ : ∃ st,
      Run.closure env name params body s.run = .ok (.function f) st ∧
        st.nextId = s.run.nextId + 1 := by
    cases name with
    | none => exact ⟨_, rfl, rfl⟩
    | some name => exact ⟨_, rfl, rfl⟩
  have hliteral : Recorded.literal (Run.closure env name params body) s =
      .ok (.function f) ⟨st, s.made ++ [f]⟩ := by
    unfold Recorded.literal
    have hlift : Recorded.lift (Run.closure env name params body) s =
        .ok (.function f) { s with run := st } := by
      unfold Recorded.lift
      rw [hclosure]
    rw [bind_of_ok hlift]
    rfl
  rw [hliteral, hclosure]
  exact ⟨rfl, hs.add rfl hnext⟩

theorem annotate {x : Recorded α} {y : Run α} (h : x.Erases y) (f : Failure → Failure) :
    (x.annotate f).Erases (Run.annotate f y) := by
  intro first s hs
  obtain ⟨hsame, hcounts⟩ := h first s hs
  unfold Recorded.annotate Run.annotate
  rw [hsame]
  cases hresult : x s with
  | ok a t =>
    rw [hresult] at hcounts
    exact ⟨rfl, hcounts⟩
  | error stop t =>
    rw [hresult] at hcounts
    exact ⟨rfl, hcounts⟩

theorem insideCall {x : Recorded α} {y : Run α} (h : x.Erases y) :
    x.insideCall.Erases (Run.insideCall y) := by
  refine .bind (.lift .beginCall) fun _ ↦ fun first s hs ↦ ?_
  obtain ⟨hsame, hcounts⟩ := h first s hs
  simp only [hsame]
  cases hresult : x s with
  | ok a t =>
    rw [hresult] at hcounts
    exact ⟨rfl, hcounts.withRun rfl⟩
  | error stop t =>
    rw [hresult] at hcounts
    exact ⟨rfl, hcounts.withRun rfl⟩

end Recorded.Erases

section Erasure

variable {call : RecordedCaller} {call' : Caller}

theorem Recorded.callValue_erases (hcall : call.Erases call') (callee receiver : Value)
    (args : List Value) :
    (callValue call callee receiver args).Erases (Run.callValue call' callee receiver args) := by
  cases callee with
  | function f => exact hcall f receiver args
  | _ => exact .lift (.fail _)

mutual

theorem Expr.evalRecorded_erases (hcall : call.Erases call') (env : Env) (e : Expr) :
    (e.evalRecorded call env).Erases (e.eval call' env) := by
  cases e with
  | literal value line => cases value <;> exact .annotate (.pure _) _
  | var name line => exact .annotate (.lift (.readVar env name)) _
  | function name params body line => exact .annotate (.literal env name params body) _
  | call callee args line =>
    refine .annotate (.bind (Expr.evalRecorded_erases hcall env callee) fun callee ↦ ?_) _
    exact .bind (evalListRecorded_erases hcall env args) fun args ↦
      Recorded.callValue_erases hcall callee .undefined args
  | object fields line =>
    exact .annotate (.bind (evalFieldsRecorded_erases hcall env fields) fun values ↦
      .lift (.objectLiteral _ values)) _
  | field receiver name line =>
    exact .annotate (.bind (Expr.evalRecorded_erases hcall env receiver) fun receiver ↦
      .lift (.readField receiver name)) _
  | method receiver name args line =>
    refine .annotate (.bind (Expr.evalRecorded_erases hcall env receiver) fun receiver ↦ ?_) _
    refine .bind (.lift (.readField receiver name)) fun method ↦ ?_
    exact .bind (evalListRecorded_erases hcall env args) fun args ↦
      Recorded.callValue_erases hcall method receiver args
  | _ => exact .annotate (.lift (.fail _)) _

theorem evalListRecorded_erases (hcall : call.Erases call') (env : Env) (es : List Expr) :
    (evalListRecorded call env es).Erases (evalList call' env es) := by
  cases es with
  | nil => exact .pure _
  | cons e rest =>
    refine .bind (Expr.evalRecorded_erases hcall env e) fun value ↦ ?_
    exact .bind (evalListRecorded_erases hcall env rest) fun values ↦ .pure _

theorem evalFieldsRecorded_erases (hcall : call.Erases call') (env : Env)
    (fields : List (String × Expr)) :
    (evalFieldsRecorded call env fields).Erases (evalFields call' env fields) := by
  cases fields with
  | nil => exact .pure _
  | cons field rest =>
    obtain ⟨key, e⟩ := field
    refine .bind (Expr.evalRecorded_erases hcall env e) fun value ↦ ?_
    exact .bind (evalFieldsRecorded_erases hcall env rest) fun values ↦ .pure _

end

mutual

theorem Expr.execRecorded_erases (hcall : call.Erases call') (env : Env) (e : Expr) :
    (e.execRecorded call env).Erases (e.exec call' env) := by
  cases e with
  | block body => exact .annotate (Block.execRecorded_erases hcall env body) _
  | assign name value declares line =>
    refine .annotate (.bind (Expr.evalRecorded_erases hcall env value) fun value ↦ ?_) _
    exact .bind (.lift (.writeVar env name value declares)) fun _ ↦ .pure _
  | setField receiver name value line =>
    refine .annotate (.bind (Expr.evalRecorded_erases hcall env receiver) fun receiver ↦ ?_) _
    refine .bind (Expr.evalRecorded_erases hcall env value) fun value ↦ ?_
    exact .bind (.lift (.writeField receiver name value)) fun _ ↦ .pure _
  | cond test onTrue onFalse line =>
    refine .annotate (.bind (Expr.evalRecorded_erases hcall env test) fun value ↦ ?_) _
    split
    · exact Block.execRecorded_erases hcall env onFalse
    · exact Block.execRecorded_erases hcall env onTrue
  | ret value line =>
    exact .annotate (.bind (Expr.evalRecorded_erases hcall env value) fun value ↦ .pure _) _
  | _ => exact .annotate (.pure _) _

theorem Block.execRecorded_erases (hcall : call.Erases call') (env : Env) (body : Block) :
    (body.execRecorded call env).Erases (body.exec call' env) := by
  cases body with
  | mk instrs line => exact execListRecorded_erases hcall env instrs

theorem execListRecorded_erases (hcall : call.Erases call') (env : Env) (es : List Expr) :
    (execListRecorded call env es).Erases (execList call' env es) := by
  cases es with
  | nil => exact .pure _
  | cons e rest =>
    unfold execListRecorded execList
    split
    · refine .bind (Expr.execRecorded_erases hcall env e) fun result ↦ ?_
      cases result with
      | some value => exact .pure _
      | none => exact execListRecorded_erases hcall env rest
    · exact .bind (Expr.evalRecorded_erases hcall env e) fun _ ↦
        execListRecorded_erases hcall env rest

end

theorem Block.evaluateRecorded_erases (hcall : call.Erases call') (name : String) (body : Block)
    (env : Env) :
    (body.evaluateRecorded call name env).Erases (body.evaluate call' name env) :=
  .annotate (.bind (Block.execRecorded_erases hcall env body) fun _ ↦ .pure _) _

theorem Function.evaluateRecorded_erases (hcall : call.Erases call') (f : Function)
    (params : List String) (body : Block) (env : Env) (receiver : Value) (args : List Value) :
    (f.evaluateRecorded call params body env receiver args).Erases
      (f.evaluate call' params body env receiver args) := by
  unfold Function.evaluateRecorded Function.evaluate
  split
  · exact .lift (.fail _)
  · refine .bind (.lift (.activate _)) fun frame ↦ ?_
    have hbody := Recorded.Erases.bind
      (.lift (.report fun st ↦ .closureCall f.name args.length st.depth)) fun _ ↦
        Block.evaluateRecorded_erases hcall f.name body (frame :: env)
    simpa only [bind_assoc] using hbody

theorem Script.evaluateRecorded_erases (hcall : call.Erases call') (script : Script) :
    (script.evaluateRecorded call).Erases (script.evaluate call') :=
  .bind (.lift (.activate _)) fun frame ↦ .insideCall
    (Block.evaluateRecorded_erases hcall "main" script.body [frame])

end Erasure

theorem Function.callRecorded_erases (steps : Nat) :
    RecordedCaller.Erases (Function.callRecorded steps) (Function.callOnTree steps) := by
  have hcut : Run.KeepsNumbers (fun st ↦ .error .unfinished st : Run Value) := fun _ ↦ rfl
  induction steps with
  | zero => exact fun _ _ _ ↦ .lift hcut
  | succ steps ih =>
    intro f receiver args
    unfold callRecorded callOnTree
    cases f.body with
    | native op => exact .lift (.native op receiver args)
    | closure params body env =>
      exact .insideCall (f.evaluateRecorded_erases ih params body env receiver args)
    | bytecode code => exact .lift hcut

end TandemScript
