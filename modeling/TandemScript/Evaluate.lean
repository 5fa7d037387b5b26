import TandemScript.Run
import TandemScript.Syntax.Declared

/-!
# Evaluating trees

The meaning of a program, read directly off its tree. Every activation of a function has variables
of its own, and a function literal keeps the activations around it. A function is called in the
way that is passed in, because calls may lead out of the tree.
-/

namespace TandemScript

namespace Run

/-- A new activation. -/
def activate (bindings : Bindings) : Run FrameId :=
  modifyGet fun st ↦
    let frames := st.frames
    let st := { st with frames := {} }
    let (id, frames) := frames.add bindings
    (id, { st with frames })

/-- Read a variable, or the global name where no activation has it. -/
def readVar (env : Env) (name : String) : Run Value := fun st ↦
  match st.frames.lookup? env name with
  | some value => .ok value st
  | none => .ok (st.global name) st

/-- Write a variable. A declaration belongs to the innermost activation. -/
def writeVar (env : Env) (name : String) (value : Value) (declares : Bool) : Run Unit := fun st ↦
  let frames := st.frames
  let st := { st with frames := {} }
  let written := if declares then env.head? else frames.owner? name env
  match written with
  | some id => .ok () { st with frames := frames.bind id name value }
  | none => .error (.failed ⟨.undefinedVariable name, {}⟩) { st with frames }

theorem writeVar_apply (env : Env) (name : String) (value : Value) (declares : Bool)
    (st : RunState) :
    writeVar env name value declares st =
      match if declares then env.head? else st.frames.owner? name env with
      | some id => .ok () { st with frames := st.frames.bind id name value }
      | none => .error (.failed ⟨.undefinedVariable name, {}⟩) st := rfl

/-- The function of a literal. A name that the literal gives is bound globally, too. -/
def closure (env : Env) (name : Option String) (params : List String) (body : Block) :
    Run Value := do
  let id ← freshId
  let function := Value.function ⟨id, name.getD Function.anonymous, .closure params body env⟩
  match name with
  | some name => do
    setGlobal name function
    return function
  | none => return function

/-- The field of a value. -/
def readField (receiver : Value) (name : String) : Run Value := fun st ↦
  match st.readField receiver name with
  | .ok value => .ok value st
  | .error failure => .error (.failed failure) st

/-- Call a value, which has to be a function. -/
def callValue (call : Caller) (callee receiver : Value) (args : List Value) : Run Value :=
  match callee with
  | .function f => call f receiver args
  | other => fun st ↦ .error (.failed (.notA "function" st.records other)) st

/-- The object of a literal. A key that is given again keeps its last value. -/
def objectLiteral (keys : List String) (values : List Value) : Run Value :=
  let kept := (values.zip (keepLast keys)).filterMap fun (value, keep) ↦
    if keep then some value else none
  newRecord ⟨.ofKeys keys, kept.toArray, none⟩

end Run

mutual

/-- The value of a node. -/
def Expr.eval (call : Caller) (env : Env) (e : Expr) : Run Value :=
  Run.annotate (·.noteLine e.line) <| match e with
  | .literal (.int n) _ => return .int n
  | .literal (.str s) _ => return .str s
  | .var name _ => Run.readVar env name
  | .function name params body _ => Run.closure env name params body
  | .call callee args _ => do
    let callee ← callee.eval call env
    let args ← evalList call env args
    Run.callValue call callee .undefined args
  | .object fields _ => do
    Run.objectLiteral (fields.map Prod.fst) (← evalFields call env fields)
  | .field receiver name _ => do
    Run.readField (← receiver.eval call env) name
  | .method receiver name args _ => do
    let receiver ← receiver.eval call env
    let method ← Run.readField receiver name
    let args ← evalList call env args
    Run.callValue call method receiver args
  | .block _ | .assign .. | .setField .. | .cond .. | .ret .. =>
    Run.fail (.inconsistent .instructionAsValue)

/-- Do what an instruction says. There is a result where it returns from its function; nodes that
are no instructions do nothing here. -/
def Expr.exec (call : Caller) (env : Env) (e : Expr) : Run (Option Value) :=
  Run.annotate (·.noteLine e.line) <| match e with
  | .block body => body.exec call env
  | .assign name value declares _ => do
    Run.writeVar env name (← value.eval call env) declares
    return none
  | .setField receiver name value _ => do
    let receiver ← receiver.eval call env
    let value ← value.eval call env
    Run.writeField receiver name value
    return none
  | .cond test onTrue onFalse _ => do
    if (← test.eval call env).isFalse then onFalse.exec call env else onTrue.exec call env
  | .ret value _ => do
    return some (← value.eval call env)
  | _ => return none

/-- Execute a block. -/
def Block.exec (call : Caller) (env : Env) : Block → Run (Option Value)
  | .mk instrs _ => execList call env instrs

/-- Execute nodes in order until one returns. Values are dropped. -/
def execList (call : Caller) (env : Env) : List Expr → Run (Option Value)
  | [] => return none
  | e :: rest => do
    if e.isInstruction then
      match ← e.exec call env with
      | some result => return some result
      | none => execList call env rest
    else
      let _ ← e.eval call env
      execList call env rest

/-- The values of some nodes, from left to right. -/
def evalList (call : Caller) (env : Env) : List Expr → Run (List Value)
  | [] => return []
  | e :: rest => do
    let value ← e.eval call env
    return value :: (← evalList call env rest)

/-- The values of the initializers of an object literal. -/
def evalFields (call : Caller) (env : Env) : List (String × Expr) → Run (List Value)
  | [] => return []
  | (_, e) :: rest => do
    let value ← e.eval call env
    return value :: (← evalFields call env rest)

end

/-- Execute the body of a function in a new activation. Where nothing is returned the result is
undefined. -/
def Block.evaluate (call : Caller) (name : String) (body : Block) (env : Env) : Run Value :=
  Run.annotate (·.noteFunction name) do
    return (← body.exec call env).getD .undefined

/-- Call a function literal with the activations it was written in. -/
def Function.evaluate (call : Caller) (f : Function) (params : List String) (body : Block)
    (env : Env) (receiver : Value) (args : List Value) : Run Value := do
  if args.length ≠ params.length then
    Run.fail ⟨.arityMismatch f.name params.length args.length, {}⟩
  else do
    let frame ← Run.activate (.activation receiver params args body.declared)
    Run.report (.closureCall f.name args.length (← get).depth)
    body.evaluate call f.name (frame :: env)

/-- Evaluate a program, as the body of a function `main` without a receiver. -/
def Script.evaluate (call : Caller) (script : Script) : Run Value := do
  let frame ← Run.activate (.activation .undefined [] [] script.body.declared)
  Run.insideCall (script.body.evaluate call "main" [frame])

end TandemScript
