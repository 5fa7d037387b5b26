import TandemScript.Engine
import TandemScript.Proofs.Mirroring

/-!
# Runs on the tree that know where they fail

The tree evaluator with more to say about how a run ends. A failure comes with the place where it
happened, and the run is cut off where two functions of the program are compared. Apart from that
it is the same evaluator: what it does is erased to what the evaluator does.
-/

namespace TandemScript

/-! ## Places -/

/-- Where a failure happened. -/
structure Place where
  /-- The node that failed and the nodes around it in the body of its function, innermost first. -/
  nodes : List Expr := []
  /-- The name of that function, as soon as the failure has left it. -/
  function : Option String := none

namespace Place

/-- The failure leaves a node. Only nodes of the function that it happened in are around it. -/
def leaveNode (e : Expr) (place : Place) : Place :=
  match place.function with
  | none => { place with nodes := place.nodes ++ [e] }
  | some _ => place

/-- The failure leaves a function. -/
def leaveFunction (name : String) (place : Place) : Place :=
  { place with function := place.function <|> some name }

/-- The line of the nearest node that has one. -/
def line? (place : Place) : Option UInt32 :=
  (place.nodes.find? fun e ↦ e.line ≠ 0).map Expr.line

end Place

/-- Why a traced run has no result. -/
inductive Halt where
  | failed (failure : Failure) (place : Place)
  /-- The steps it was allowed were not enough. -/
  | unfinished
  /-- Two functions of the program were compared. -/
  | compared

/-! ## Traced computations -/

/-- A computation over the state of a run that knows where it fails. -/
abbrev Traced := EStateM Halt RunState

/-- A way of calling a function. -/
abbrev TracedCaller := Function → Value → List Value → Traced Value

/-- Whether a call compares two functions of the program. -/
def Native.comparesFunctions : Native → List Value → Bool
  | .builtin .eq, [a, b] | .builtin .ne, [a, b] => a.IsClosure && b.IsClosure
  | _, _ => false

namespace Traced

variable {α : Type}

/-- End without a result. -/
def halt (h : Halt) : Traced α := fun st ↦
  .error h st

/-- A computation that fails at the node at hand, if it does. -/
def lift (x : Run α) : Traced α := fun st ↦
  match x st with
  | .ok a st => .ok a st
  | .error (.failed failure) st => .error (.failed failure {}) st
  | .error .unfinished st => .error .unfinished st

/-- A computation whose failures are noted something about, and move to another place. -/
def note (f : Failure → Failure) (g : Place → Place) (x : Traced α) : Traced α := fun st ↦
  match x st with
  | .error (.failed failure place) st => .error (.failed (f failure) (g place)) st
  | result => result

/-- A computation at a node. -/
def atNode (e : Expr) (x : Traced α) : Traced α :=
  note (·.noteLine e.line) (·.leaveNode e) x

/-- The computation of the body of a function. -/
def inFunction (name : String) (x : Traced α) : Traced α :=
  note (·.noteFunction name) (·.leaveFunction name) x

/-- A computation inside a call. -/
def insideCall (x : Traced α) : Traced α := do
  lift Run.beginCall
  fun st ↦
    match x st with
    | .ok a st => .ok a { st with depth := st.depth - 1 }
    | .error halt st => .error halt { st with depth := st.depth - 1 }

/-- Call a value, which has to be a function. -/
def callValue (call : TracedCaller) (callee receiver : Value) (args : List Value) : Traced Value :=
  match callee with
  | .function f => call f receiver args
  | other => fun st ↦ .error (.failed (.notA "function" st.records other) {}) st

end Traced

/-! ## The evaluator -/

mutual

/-- The value of a node. -/
def Expr.evalTraced (call : TracedCaller) (env : Env) (e : Expr) : Traced Value :=
  Traced.atNode e <| match e with
  | .literal (.int n) _ => return .int n
  | .literal (.str s) _ => return .str s
  | .var name _ => Traced.lift (Run.readVar env name)
  | .function name params body _ => Traced.lift (Run.closure env name params body)
  | .call callee args _ => do
    let callee ← callee.evalTraced call env
    let args ← evalListTraced call env args
    Traced.callValue call callee .undefined args
  | .object fields _ => do
    let values ← evalFieldsTraced call env fields
    Traced.lift (Run.objectLiteral (fields.map Prod.fst) values)
  | .field receiver name _ => do
    let receiver ← receiver.evalTraced call env
    Traced.lift (Run.readField receiver name)
  | .method receiver name args _ => do
    let receiver ← receiver.evalTraced call env
    let method ← Traced.lift (Run.readField receiver name)
    let args ← evalListTraced call env args
    Traced.callValue call method receiver args
  | .block _ | .assign .. | .setField .. | .cond .. | .ret .. =>
    Traced.lift (Run.fail (.inconsistent .instructionAsValue))

/-- Do what an instruction says. -/
def Expr.execTraced (call : TracedCaller) (env : Env) (e : Expr) : Traced (Option Value) :=
  Traced.atNode e <| match e with
  | .block body => body.execTraced call env
  | .assign name value declares _ => do
    let value ← value.evalTraced call env
    Traced.lift (Run.writeVar env name value declares)
    return none
  | .setField receiver name value _ => do
    let receiver ← receiver.evalTraced call env
    let value ← value.evalTraced call env
    Traced.lift (Run.writeField receiver name value)
    return none
  | .cond test onTrue onFalse _ => do
    let value ← test.evalTraced call env
    if value.isFalse then onFalse.execTraced call env else onTrue.execTraced call env
  | .ret value _ => do
    let value ← value.evalTraced call env
    return some value
  | _ => return none

/-- Execute a block. -/
def Block.execTraced (call : TracedCaller) (env : Env) : Block → Traced (Option Value)
  | .mk instrs _ => execListTraced call env instrs

/-- Execute nodes in order until one returns. -/
def execListTraced (call : TracedCaller) (env : Env) : List Expr → Traced (Option Value)
  | [] => return none
  | e :: rest => do
    if e.isInstruction then
      match ← e.execTraced call env with
      | some result => return some result
      | none => execListTraced call env rest
    else
      let _ ← e.evalTraced call env
      execListTraced call env rest

/-- The values of some nodes, from left to right. -/
def evalListTraced (call : TracedCaller) (env : Env) : List Expr → Traced (List Value)
  | [] => return []
  | e :: rest => do
    let value ← e.evalTraced call env
    let values ← evalListTraced call env rest
    return value :: values

/-- The values of the initializers of an object literal. -/
def evalFieldsTraced (call : TracedCaller) (env : Env) :
    List (String × Expr) → Traced (List Value)
  | [] => return []
  | (_, e) :: rest => do
    let value ← e.evalTraced call env
    let values ← evalFieldsTraced call env rest
    return value :: values

end

/-- Execute the body of a function in a new activation. -/
def Block.evaluateTraced (call : TracedCaller) (name : String) (body : Block) (env : Env) :
    Traced Value :=
  Traced.inFunction name do
    let result ← body.execTraced call env
    return result.getD .undefined

/-- Call a function literal with the activations it was written in. -/
def Function.evaluateTraced (call : TracedCaller) (f : Function) (params : List String)
    (body : Block) (env : Env) (receiver : Value) (args : List Value) : Traced Value := do
  if args.length ≠ params.length then
    Traced.lift (Run.fail ⟨.arityMismatch f.name params.length args.length, {}⟩)
  else do
    let frame ← Traced.lift (Run.activate (.activation receiver params args body.declared))
    Traced.lift (do Run.report (.closureCall f.name args.length (← get).depth))
    body.evaluateTraced call f.name (frame :: env)

/-- Evaluate a program, as the body of a function `main` without a receiver. -/
def Script.evaluateTraced (call : TracedCaller) (script : Script) : Traced Value := do
  let frame ← Traced.lift (Run.activate (.activation .undefined [] [] script.body.declared))
  Traced.insideCall (script.body.evaluateTraced call "main" [frame])

/-- Call a function. Compiled ones are not traced. -/
def Function.callTraced : (steps : Nat) → TracedCaller
  | 0 => fun _ _ _ ↦ Traced.halt .unfinished
  | steps + 1 => fun f receiver args ↦
    match f.body with
    | .native op =>
      if op.comparesFunctions args then Traced.halt .compared
      else Traced.lift (op.call receiver args)
    | .closure params body env =>
      Traced.insideCall
        (f.evaluateTraced (Function.callTraced steps) params body env receiver args)
    | .bytecode _ => Traced.lift (f.callWithin (steps + 1) receiver args)

/-! ## Erasure -/

/-- Apart from the places of failures the second computation comes to the same as the first one, if
that does not compare functions of the program. -/
def Traced.Erases {α : Type} (x : Traced α) (y : Run α) : Prop :=
  ∀ st, match x st with
    | .ok a st' => y st = .ok a st'
    | .error (.failed failure _) st' => y st = .error (.failed failure) st'
    | .error .unfinished st' => y st = .error .unfinished st'
    | .error .compared _ => True

/-- Calls come to the same. -/
def TracedCaller.Erases (call : TracedCaller) (call' : Caller) : Prop :=
  ∀ f receiver args, Traced.Erases (call f receiver args) (call' f receiver args)

namespace Traced.Erases

variable {α β : Type}

theorem pure (a : α) : Erases (Pure.pure a) (Pure.pure a) :=
  fun _ ↦ rfl

theorem bind {x : Traced α} {y : Run α} {f : α → Traced β} {g : α → Run β} (hx : x.Erases y)
    (hf : ∀ a, (f a).Erases (g a)) : (x >>= f).Erases (y >>= g) := by
  intro st
  have h := hx st
  cases hresult : x st with
  | ok a st' =>
    rw [hresult] at h
    rw [bind_of_ok hresult, bind_of_ok h]
    exact hf a st'
  | error halt st' =>
    rw [hresult] at h
    rw [bind_of_error hresult]
    cases halt with
    | compared => trivial
    | _ => exact bind_of_error h

theorem lift (x : Run α) : (Traced.lift x).Erases x := by
  intro st
  unfold Traced.lift
  cases x st with
  | ok a st' => rfl
  | error stop st' => cases stop <;> rfl

theorem note {x : Traced α} {y : Run α} (h : x.Erases y) (f : Failure → Failure)
    (g : Place → Place) : (x.note f g).Erases (Run.annotate f y) := by
  intro st
  have hst := h st
  unfold Traced.note Run.annotate
  cases hresult : x st with
  | ok a st' =>
    rw [hresult] at hst
    simp only [hst]
  | error halt st' =>
    rw [hresult] at hst
    cases halt with
    | compared => trivial
    | _ =>
      simp only [hst]
      rfl

theorem atNode (e : Expr) {x : Traced α} {y : Run α} (h : x.Erases y) :
    (x.atNode e).Erases (Run.annotate (·.noteLine e.line) y) :=
  h.note _ _

theorem insideCall {x : Traced α} {y : Run α} (h : x.Erases y) :
    x.insideCall.Erases (Run.insideCall y) := by
  refine .bind (.lift _) fun _ ↦ fun st ↦ ?_
  have hst := h st
  cases hresult : x st with
  | ok a st' =>
    rw [hresult] at hst
    simp only [hst]
  | error halt st' =>
    rw [hresult] at hst
    cases halt with
    | compared => trivial
    | _ => simp only [hst]

end Traced.Erases

section Erasure

variable {call : TracedCaller} {call' : Caller}

theorem Traced.callValue_erases (hcall : call.Erases call') (callee receiver : Value)
    (args : List Value) :
    (callValue call callee receiver args).Erases (Run.callValue call' callee receiver args) := by
  cases callee with
  | function f => exact hcall f receiver args
  | _ => exact fun _ ↦ rfl

mutual

theorem Expr.evalTraced_erases (hcall : call.Erases call') (env : Env) (e : Expr) :
    (e.evalTraced call env).Erases (e.eval call' env) := by
  cases e with
  | literal value line => cases value <;> exact .atNode _ (.pure _)
  | var name line => exact .atNode _ (.lift _)
  | function name params body line => exact .atNode _ (.lift _)
  | call callee args line =>
    refine .atNode _ (.bind (Expr.evalTraced_erases hcall env callee) fun callee ↦ ?_)
    exact .bind (evalListTraced_erases hcall env args) fun args ↦
      Traced.callValue_erases hcall callee .undefined args
  | object fields line =>
    exact .atNode _ (.bind (evalFieldsTraced_erases hcall env fields) fun _ ↦ .lift _)
  | field receiver name line =>
    exact .atNode _ (.bind (Expr.evalTraced_erases hcall env receiver) fun _ ↦ .lift _)
  | method receiver name args line =>
    refine .atNode _ (.bind (Expr.evalTraced_erases hcall env receiver) fun receiver ↦ ?_)
    refine .bind (.lift _) fun method ↦ ?_
    exact .bind (evalListTraced_erases hcall env args) fun args ↦
      Traced.callValue_erases hcall method receiver args
  | _ => exact .atNode _ (.lift _)

theorem evalListTraced_erases (hcall : call.Erases call') (env : Env) (es : List Expr) :
    (evalListTraced call env es).Erases (evalList call' env es) := by
  cases es with
  | nil => exact .pure _
  | cons e rest =>
    refine .bind (Expr.evalTraced_erases hcall env e) fun value ↦ ?_
    exact .bind (evalListTraced_erases hcall env rest) fun values ↦ .pure _

theorem evalFieldsTraced_erases (hcall : call.Erases call') (env : Env)
    (fields : List (String × Expr)) :
    (evalFieldsTraced call env fields).Erases (evalFields call' env fields) := by
  cases fields with
  | nil => exact .pure _
  | cons field rest =>
    obtain ⟨key, e⟩ := field
    refine .bind (Expr.evalTraced_erases hcall env e) fun value ↦ ?_
    exact .bind (evalFieldsTraced_erases hcall env rest) fun values ↦ .pure _

end

mutual

theorem Expr.execTraced_erases (hcall : call.Erases call') (env : Env) (e : Expr) :
    (e.execTraced call env).Erases (e.exec call' env) := by
  cases e with
  | block body => exact .atNode _ (Block.execTraced_erases hcall env body)
  | assign name value declares line =>
    refine .atNode _ (.bind (Expr.evalTraced_erases hcall env value) fun value ↦ ?_)
    exact .bind (.lift _) fun _ ↦ .pure _
  | setField receiver name value line =>
    refine .atNode _ (.bind (Expr.evalTraced_erases hcall env receiver) fun receiver ↦ ?_)
    refine .bind (Expr.evalTraced_erases hcall env value) fun value ↦ ?_
    exact .bind (.lift _) fun _ ↦ .pure _
  | cond test onTrue onFalse line =>
    refine .atNode _ (.bind (Expr.evalTraced_erases hcall env test) fun value ↦ ?_)
    split
    · exact Block.execTraced_erases hcall env onFalse
    · exact Block.execTraced_erases hcall env onTrue
  | ret value line =>
    exact .atNode _ (.bind (Expr.evalTraced_erases hcall env value) fun value ↦ .pure _)
  | _ => exact .atNode _ (.pure _)

theorem Block.execTraced_erases (hcall : call.Erases call') (env : Env) (body : Block) :
    (body.execTraced call env).Erases (body.exec call' env) := by
  cases body with
  | mk instrs line => exact execListTraced_erases hcall env instrs

theorem execListTraced_erases (hcall : call.Erases call') (env : Env) (es : List Expr) :
    (execListTraced call env es).Erases (execList call' env es) := by
  cases es with
  | nil => exact .pure _
  | cons e rest =>
    unfold execListTraced execList
    split
    · refine .bind (Expr.execTraced_erases hcall env e) fun result ↦ ?_
      cases result with
      | some value => exact .pure _
      | none => exact execListTraced_erases hcall env rest
    · exact .bind (Expr.evalTraced_erases hcall env e) fun _ ↦ execListTraced_erases hcall env rest

end

theorem Block.evaluateTraced_erases (hcall : call.Erases call') (name : String) (body : Block)
    (env : Env) :
    (body.evaluateTraced call name env).Erases (body.evaluate call' name env) :=
  .note (.bind (Block.execTraced_erases hcall env body) fun _ ↦ .pure _) _ _

theorem Function.evaluateTraced_erases (hcall : call.Erases call') (f : Function)
    (params : List String) (body : Block) (env : Env) (receiver : Value) (args : List Value) :
    (f.evaluateTraced call params body env receiver args).Erases
      (f.evaluate call' params body env receiver args) := by
  unfold Function.evaluateTraced Function.evaluate
  split
  · exact .lift _
  · refine .bind (.lift _) fun frame ↦ ?_
    have hbody := Traced.Erases.bind
      (.lift (do Run.report (.closureCall f.name args.length (← get).depth))) fun _ ↦
        Block.evaluateTraced_erases hcall f.name body (frame :: env)
    simpa only [bind_assoc] using hbody

theorem Script.evaluateTraced_erases (hcall : call.Erases call') (script : Script) :
    (script.evaluateTraced call).Erases (script.evaluate call') :=
  .bind (.lift _) fun frame ↦ .insideCall
    (Block.evaluateTraced_erases hcall "main" script.body [frame])

end Erasure

theorem Function.callTraced_erases (steps : Nat) :
    TracedCaller.Erases (Function.callTraced steps) (Function.callWithin steps) := by
  induction steps with
  | zero => exact fun _ _ _ _ ↦ rfl
  | succ steps ih =>
    intro f receiver args
    cases hbody : f.body with
    | native op =>
      have hcall : f.callWithin (steps + 1) receiver args = op.call receiver args := by
        rw [Function.callWithin]
        simp only [hbody]
      rw [hcall, Function.callTraced]
      simp only [hbody]
      by_cases hcompares : op.comparesFunctions args = true
      · rw [if_pos hcompares]
        exact fun _ ↦ trivial
      · rw [if_neg hcompares]
        exact .lift _
    | closure params body env =>
      rw [Function.callWithin, Function.callTraced]
      simp only [hbody]
      exact .insideCall (Function.evaluateTraced_erases ih f params body env receiver args)
    | bytecode code =>
      rw [Function.callTraced]
      simp only [hbody]
      exact .lift _

/-! ## Where failures are noted -/

namespace Traced

variable {α : Type} {st st' : RunState} {failure : Failure} {place : Place}

theorem insideCall_of_le (x : Traced α) (h : st.config.nestingLimit ≤ st.depth) :
    ∃ failure st', failure.IsExhaustion ∧ x.insideCall st = .error (.failed failure {}) st' := by
  have hbegin : lift Run.beginCall st =
      .error (.failed ⟨.exhausted .stack st.config.stackSize, {}⟩ {})
        { st with log := st.log.add (.depthLimit st.depth) } := by
    unfold lift Run.beginCall
    simp only [if_pos h]
  exact ⟨_, _, ⟨_, _, rfl⟩, bind_of_error hbegin⟩

theorem insideCall_of_lt (x : Traced α) (h : st.depth < st.config.nestingLimit) :
    x.insideCall st = match x { st with depth := st.depth + 1 } with
      | .ok a st => .ok a { st with depth := st.depth - 1 }
      | .error halt st => .error halt { st with depth := st.depth - 1 } := by
  have hbegin : lift Run.beginCall st = .ok () { st with depth := st.depth + 1 } := by
    unfold lift Run.beginCall
    simp only [if_neg (Nat.not_le_of_lt h)]
  exact bind_of_ok hbegin

/-- A failure that has left a function happened in this one or in another one. -/
theorem function_of_inFunction {x : Traced α} {name : String}
    (h : x.inFunction name st = .error (.failed failure place) st') :
    ∃ inner, place.function = some inner := by
  unfold inFunction note at h
  split at h
  · next failure' place' st'' hx =>
    cases h
    cases hplace : place'.function with
    | none => exact ⟨name, by simp [Place.leaveFunction, hplace]⟩
    | some inner => exact ⟨inner, by simp [Place.leaveFunction, hplace]⟩
  · next hx => exact absurd h (hx failure place st')

/-- A failure in a call happened in the body of some function, unless calls nest too deeply. -/
theorem function_of_insideCall {x : Traced α} {name : String}
    (h : (x.inFunction name).insideCall st = .error (.failed failure place) st')
    (hroom : ¬ failure.IsExhaustion) : ∃ inner, place.function = some inner := by
  by_cases hdepth : st.depth < st.config.nestingLimit
  · rw [insideCall_of_lt _ hdepth] at h
    split at h
    · cases h
    · next hbody =>
      cases h
      exact function_of_inFunction hbody
  · obtain ⟨other, st₁, hexhausted, hlimit⟩ :=
      (x.inFunction name).insideCall_of_le (Nat.le_of_not_lt hdepth)
    rw [hlimit] at h
    cases h
    exact absurd hexhausted hroom

end Traced

theorem Script.function_of_failed {call : TracedCaller} {script : Script} {st st' : RunState}
    {failure : Failure} {place : Place}
    (h : script.evaluateTraced call st = .error (.failed failure place) st')
    (hroom : ¬ failure.IsExhaustion) : ∃ name, place.function = some name := by
  have hcall : Traced.insideCall (script.body.evaluateTraced call "main" [st.frames.cells.size])
      { st with frames := (st.frames.add
        (.activation .undefined [] [] script.body.declared)).2 } =
        .error (.failed failure place) st' := h
  exact Traced.function_of_insideCall hcall hroom

end TandemScript
