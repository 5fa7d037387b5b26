import TandemScript.Bindings
import TandemScript.Builtin
import TandemScript.Dictionary
import TandemScript.Event

/-!
# The state of a run

Everything that outlives a single call: global names, the dictionary, records and activations,
the output so far, and the limits. A computation over this state either has a result, or fails, or
is cut off because it may not take more steps; the state is there in all three cases.
-/

namespace TandemScript

/-! ## State -/

/-- The part of the state that compiling changes. -/
structure Pool where
  dict : Dictionary := .new
  /-- The number for the next function or shape. -/
  nextId : Nat := 0
  log : Log := {}
  deriving Inhabited

/-- What a function of the host answers: a result, the records it leaves behind, and what it
prints. -/
structure Reply where
  result : Except Failure Value
  records : Records
  output : String := ""

/-- A function of the host, given the records, the receiver and the arguments. -/
abbrev Handler := Records → Value → List Value → Reply

/-- The state of a run. -/
structure RunState extends Pool where
  config : Config := {}
  globals : Bindings := {}
  records : Records := {}
  frames : Frames := {}
  hosts : Array Handler := #[]
  output : String := ""
  /-- How many heaps there were; they are numbered from one. -/
  heapCount : Nat := 0
  /-- How many calls are active inside each other. -/
  depth : Nat := 0

instance : Inhabited RunState := ⟨{}⟩

/-- The function value of a built-in function; their numbers are the first ones. -/
def Builtin.function (op : Builtin) : Function :=
  ⟨op.ctorIdx, op.name, .native (.builtin op)⟩

/-- The names that every program starts with: the built-in functions, and `global` for the global
environment itself. -/
def Bindings.initial : Bindings :=
  ⟨Builtin.all.map (fun op ↦ (op.name, .function op.function)) ++ [("global", .global)]⟩

/-- The state before anything has run. -/
def RunState.new (config : Config) (level : Option Level := none) : RunState where
  nextId := Builtin.all.length
  log := { level }
  config := config
  globals := .initial

/-! ## Computations -/

/-- Why a computation has no result. -/
inductive Stop where
  | failed (failure : Failure)
  /-- The steps it was allowed were not enough. -/
  | unfinished

/-- A computation over the state of a run. -/
abbrev Run := EStateM Stop RunState

/-- How a function is called: with a receiver and arguments. -/
abbrev Caller := Function → Value → List Value → Run Value

namespace Stop

/-- Note something about a failure. -/
def mapFailure (f : Failure → Failure) : Stop → Stop
  | failed failure => failed (f failure)
  | unfinished => unfinished

end Stop

namespace Run

def fail {α : Type} (failure : Failure) : Run α := fun st ↦
  .error (.failed failure) st

def ofExcept {α : Type} : Except Failure α → Run α
  | .ok a => pure a
  | .error failure => fail failure

/-- A computation whose failures are noted something about. -/
@[inline] def annotate {α : Type} (f : Failure → Failure) (x : Run α) : Run α := fun st ↦
  match x st with
  | .error stop st => .error (stop.mapFailure f) st
  | .ok a st => .ok a st

/-- A computation on the dictionary alone. -/
@[inline] def onDict {α : Type} (x : EStateM Failure Dictionary α) : Run α := fun st ↦
  let dict := st.dict
  let st := { st with dict := ⟨#[]⟩ }
  match x dict with
  | .ok a dict => .ok a { st with dict }
  | .error failure dict => .error (.failed failure) { st with dict }

theorem onDict_apply {α : Type} (x : EStateM Failure Dictionary α) (st : RunState) :
    onDict x st = match x st.dict with
      | .ok a dict => .ok a { st with dict }
      | .error failure dict => .error (.failed failure) { st with dict } := rfl

/-- A computation on the records alone. -/
@[inline] def onRecords {α : Type} (x : EStateM Failure Records α) : Run α := fun st ↦
  let records := st.records
  let st := { st with records := {} }
  match x records with
  | .ok a records => .ok a { st with records }
  | .error failure records => .error (.failed failure) { st with records }

theorem onRecords_apply {α : Type} (x : EStateM Failure Records α) (st : RunState) :
    onRecords x st = match x st.records with
      | .ok a records => .ok a { st with records }
      | .error failure records => .error (.failed failure) { st with records } := rfl

/-- A computation on what compiling changes. -/
@[inline] def onPool {α : Type} (x : EStateM Failure Pool α) : Run α := fun st ↦
  match x st.toPool with
  | .ok a pool => .ok a { st with toPool := pool }
  | .error failure pool => .error (.failed failure) { st with toPool := pool }

/-- Report an event. -/
def report (event : Event) : Run Unit :=
  modify fun st ↦ { st with log := st.log.add event }

/-- A number that no function and no shape has. -/
def freshId : Run Nat :=
  modifyGet fun st ↦ (st.nextId, { st with nextId := st.nextId + 1 })

/-- A new record. -/
def newRecord (record : Record) : Run Value :=
  modifyGet fun st ↦
    let records := st.records
    let st := { st with records := {} }
    let (id, records) := records.add record
    (.record id, { st with records })

/-- Bind a global name. -/
def setGlobal (name : String) (value : Value) : Run Unit :=
  modify fun st ↦ { st with globals := st.globals.set name value }

/-! ## Calls -/

/-- Enter a call. Where calls nest too deeply the stack is reported as exhausted, with the capacity
that was asked for. -/
def beginCall : Run Unit := fun st ↦
  if st.config.nestingLimit ≤ st.depth then
    let st := { st with log := st.log.add (.depthLimit st.depth) }
    .error (.failed ⟨.exhausted .stack st.config.stackSize, {}⟩) st
  else
    .ok () { st with depth := st.depth + 1 }

/-- A computation inside a call, which is left however the computation ends. -/
@[inline] def insideCall {α : Type} (x : Run α) : Run α := do
  beginCall
  fun st ↦
    match x st with
    | .ok a st => .ok a { st with depth := st.depth - 1 }
    | .error stop st => .error stop { st with depth := st.depth - 1 }

end Run

/-- Call a function of the host. -/
def Native.call (native : Native) (receiver : Value) (args : List Value) : Run Value := fun st ↦
  match native with
  | .builtin op =>
    match op.call st.records args with
    | (.ok value, output) => .ok value { st with output := st.output ++ output }
    | (.error failure, _) => .error (.failed failure) st
  | .host handler =>
    match st.hosts[handler]? with
    | none => .error (.failed (.inconsistent (.host "no such host function"))) st
    | some respond =>
      let records := st.records
      let st := { st with records := {} }
      let reply := respond records receiver args
      let st := { st with records := reply.records, output := st.output ++ reply.output }
      match reply.result with
      | .ok value => .ok value st
      | .error failure => .error (.failed failure) st

theorem Native.call_builtin (op : Builtin) (receiver : Value) (args : List Value) (st : RunState) :
    call (.builtin op) receiver args st =
      match op.call st.records args with
      | (.ok value, output) => .ok value { st with output := st.output ++ output }
      | (.error failure, _) => .error (.failed failure) st := rfl

/-! ## Globals and fields -/

namespace RunState

/-- The value of a global name; names that are not bound are undefined. -/
def global (st : RunState) (name : String) : Value :=
  (st.globals.get? name).getD .undefined

/-- The field of a record, or the global variable where the receiver is the global environment.
Fields that are not there are undefined. -/
def readField (st : RunState) (receiver : Value) (name : String) : Except Failure Value :=
  match receiver with
  | .record id => .ok ((st.records.field? id name).getD .undefined)
  | .global => .ok (st.global name)
  | other => .error (.notA "object" st.records other)

end RunState

/-- Write a field. A record only takes the fields of its shape; the global environment takes any
name. -/
def Run.writeField (receiver : Value) (name : String) (value : Value) : Run Unit := fun st ↦
  match receiver with
  | .record id =>
    match (st.records.get? id).bind fun record ↦ record.shape.slot? name with
    | none => .error (.failed ⟨.invalidField name, {}⟩) st
    | some slot => .ok () { st with records := st.records.setSlot id slot value }
  | .global => .ok () { st with globals := st.globals.set name value }
  | other => .error (.failed (.notA "object" st.records other)) st

theorem Run.writeField_record (id : RecordId) (name : String) (value : Value) (st : RunState) :
    writeField (.record id) name value st =
      match (st.records.get? id).bind fun record ↦ record.shape.slot? name with
      | none => .error (.failed ⟨.invalidField name, {}⟩) st
      | some slot => .ok () { st with records := st.records.setSlot id slot value } := rfl

end TandemScript
