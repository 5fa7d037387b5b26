import TandemScript.Machine.Execute

/-!
# Machines that check their accesses

The machine with a check before every access at a position that it works out: a cell of the stack,
of the code or of the heap has to be there, a range of cells has to end where it may, and no
difference may be below zero. Apart from the checks it is the same machine.
-/

namespace TandemScript

/-! ## Checks -/

/-- An access that is not there. -/
inductive Fault where
  /-- A position at the end or behind it. -/
  | outside (index size : Nat)
  /-- A range that starts behind its end, or that ends too far away. -/
  | range (start stop size : Nat)
  /-- A difference below zero. -/
  | below (a b : Nat)
  deriving DecidableEq, Repr

/-- Why a computation with checks has no value. -/
inductive Trap (ε : Type) where
  | stopped (e : ε)
  | fault (fault : Fault)

/-- A computation with checks. -/
abbrev Checked (ε σ α : Type) := EStateM (Trap ε) σ α

/-- A computation of a machine with checks. -/
abbrev CheckedExec := Checked Stop Machine

namespace Checked

variable {ε ε' σ α β : Type}

/-- A computation without checks. -/
def lift (x : EStateM ε σ α) : Checked ε σ α := fun s ↦
  match x s with
  | .ok a t => .ok a t
  | .error e t => .error (.stopped e) t

def check (ok : Bool) (fault : Fault) : Checked ε σ Unit := fun s ↦
  if ok then .ok () s else .error (.fault fault) s

def checkIndex (index size : Nat) : Checked ε σ Unit :=
  check (index < size) (.outside index size)

def checkRange (start stop size : Nat) : Checked ε σ Unit :=
  check (start ≤ stop ∧ stop ≤ size) (.range start stop size)

def checkDifference (a b : Nat) : Checked ε σ Unit :=
  check (b ≤ a) (.below a b)

/-- A computation on a part of the state, whose failures are those of the whole. -/
def on {τ : Type} (part : σ → τ) (put : σ → τ → σ) (fail : ε → ε') (x : Checked ε τ α) :
    Checked ε' σ α := fun s ↦
  match x (part s) with
  | .ok a t => .ok a (put s t)
  | .error (.stopped e) t => .error (.stopped (fail e)) (put s t)
  | .error (.fault fault) t => .error (.fault fault) (put s t)

end Checked

/-! ## The heap -/

namespace Heap

variable {σ : Type}

def checkedShapeWord (heap : Heap) (index : Nat) : Checked Failure σ Word := do
  let start ← Checked.lift (MonadExcept.ofExcept (heap.object index))
  Checked.checkIndex start heap.capacity
  return heap.cells.getD start Word.undefined

def checkedReadField (heap : Heap) (index offset : Nat) : Checked Failure σ Word := do
  let cell ← Checked.lift (MonadExcept.ofExcept (heap.cellOfField index offset))
  Checked.checkIndex cell heap.capacity
  return heap.cells.getD cell Word.undefined

def checkedWriteField (heap : Heap) (index offset : Nat) (word : Word) :
    Checked Failure σ Heap := do
  let cell ← Checked.lift (MonadExcept.ofExcept (heap.cellOfField index offset))
  Checked.checkIndex cell heap.capacity
  return heap.setCell cell word

end Heap

namespace Checked

/-! ## Copies -/

def copyOf (dict : Dictionary) (heap : Heap) (index : Nat) : Checked Failure Copying RecordId := do
  match (← get).copies[index]? with
  | some record => return record
  | none =>
    let word ← heap.checkedShapeWord index
    let shape ← lift (MonadExcept.ofExcept (dict.shape word))
    modifyGet fun ⟨records, copies, pending⟩ ↦
      let (record, records) := records.add (.unfilled shape ⟨heap.id, index⟩)
      (record, ⟨records, copies.insert index record, ⟨index, record, shape.size⟩ :: pending⟩)

def copyWord (dict : Dictionary) (heap : Heap) (word : Word) : Checked Failure Copying Value :=
  match word.view with
  | .reference index => return .record (← copyOf dict heap index)
  | _ => lift (MonadExcept.ofExcept (plainValue dict word))

def copyFields (dict : Dictionary) (heap : Heap) (object : Unfilled) (offset : Nat) :
    Nat → Checked Failure Copying Unit
  | 0 => return
  | count + 1 => do
    let word ← heap.checkedReadField object.index offset
    let value ← copyWord dict heap word
    modify fun ⟨records, copies, pending⟩ ↦
      ⟨records.setSlot object.record offset value, copies, pending⟩
    copyFields dict heap object (offset + 1) count

def copyPending (dict : Dictionary) (heap : Heap) : Nat → Checked Failure Copying Unit
  | 0 => return
  | rounds + 1 => do
    match (← get).pending with
    | [] => return
    | object :: pending =>
      modify fun state ↦ { state with pending }
      copyFields dict heap object 0 object.size
      copyPending dict heap rounds

def copyOut (dict : Dictionary) (heap : Heap) (index : Nat) : Checked Failure Copying Value := do
  let record ← copyOf dict heap index
  copyPending dict heap heap.used
  return .record record

/-! ## The machine -/

/-- A computation on nothing but the state that it reads. -/
def asking {α : Type} (x : Machine → Checked Failure Unit α) : CheckedExec α := fun m ↦
  on (fun _ ↦ ()) (fun m _ ↦ m) .failed (x m) m

def decode (word : Word) : CheckedExec Value := fun m ↦
  match word.view with
  | .reference index =>
    on (fun m ↦ { records := m.run.records })
      (fun m st ↦ { m with run := { m.run with records := st.records } }) .failed
      (copyOut m.run.dict m.heap index) m
  | _ => lift (Exec.decode word) m

def cell (index : Nat) : CheckedExec Word := do
  let word ← lift (Exec.cell index)
  checkIndex index (← lift (Exec.read fun m ↦ m.stack.size))
  return word

def setCell (index : Nat) (word : Word) : CheckedExec Unit := do
  lift (Exec.setCell index word)
  checkIndex index (← lift (Exec.read fun m ↦ m.stack.size))

def lastCells (count : Nat) (missing : Inconsistency) : CheckedExec (Array Word) := do
  let cells ← lift (Exec.lastCells count missing)
  let size ← lift (Exec.read fun m ↦ m.stack.size)
  checkDifference size count
  checkRange (size - count) size size
  return cells

def decodeCells (index : Nat) : Nat → CheckedExec (List Value)
  | 0 => return []
  | count + 1 => do
    let value ← decode (← cell index)
    return value :: (← decodeCells (index + 1) count)

/-! ### Calls -/

def callOutside (call : Caller) (callee : Function) (base argc : Nat) : CheckedExec Unit := do
  checkDifference base 1
  let receiver ← decode (← cell (base - 1))
  let args ← decodeCells base argc
  lift (Exec.report .debug fun _ ↦ .nativeCall callee.name argc)
  let result ← lift (Exec.onRun (call callee receiver args))
  let result ← lift (Exec.encode result)
  checkDifference base 2
  lift (Exec.truncate (base - 2))
  lift (Exec.push result)

def callInside (callee : Function) (code : Code) (base argc : Nat) : CheckedExec Unit := do
  checkDifference base 1
  lift (Exec.callInside callee code base argc)

def callFunction (call : Caller) (argc : Nat) : CheckedExec Unit := do
  let base ← lift <| Exec.query fun m ↦
    if m.stack.size < argc + 2 then .error (.inconsistent .windowUnderflow)
    else .ok (m.stack.size - argc)
  checkDifference base 2
  match ← decode (← cell (base - 2)) with
  | .function callee =>
    match callee.code? with
    | some code => callInside callee code base argc
    | none => callOutside call callee base argc
  | other => lift (Exec.typeError "function" other)

def returnFrom : CheckedExec (Option Word) := do
  let result ← lift Exec.pop
  let savedPc ← lift (Exec.query fun m ↦ m.savedNumber (m.linkStart + 1))
  if savedPc = 0 then return some result
  else do
    let savedBp ← lift (Exec.query fun m ↦ m.savedNumber m.linkStart)
    let caller ← lift <| Exec.query fun m ↦
      m.cell (m.linkStart + 2) >>= m.run.dict.function
    match caller.code? with
    | none => lift (Exec.fail (.inconsistent (.noBytecode caller.name)))
    | some code => do
      checkDifference (← lift (Exec.read Machine.bp)) 1
      lift <| modify fun m ↦
        let stack := if m.bp = 0 then m.stack else m.stack.shrink (m.bp - 1)
        { m with stack, pc := savedPc, bp := savedBp, function := caller, code }
      lift (Exec.push result)
      lift (Exec.report .trace fun m ↦ .returned m.function.name m.stackDump)
      return none

/-! ### Objects -/

def objectDumps (m : Machine) (start : Nat) : Nat → Checked Failure Unit (List String)
  | 0 => return []
  | count + 1 =>
    if m.heap.used < start + headerCells then return []
    else do
      checkIndex start m.heap.used
      let place := "\n@" ++ Text.alignLeft 6 (toString start) ++ " "
      let header := m.heap.cells.getD start Word.undefined
      match m.run.dict.shape header with
      | .error _ => return [place ++ "corrupt header " ++ header.text]
      | .ok shape =>
        let stop := min (start + headerCells + shape.size) m.heap.used
        checkRange (start + headerCells) stop m.heap.used
        let fields := (m.heap.cells.extract (start + headerCells) stop).toList.map Word.text
        return (place ++ shape.text ++ " " ++ Text.bracketed fields) ::
          (← objectDumps m stop count)

def heapDump (m : Machine) : Checked Failure Unit String := do
  checkRange 0 m.heap.used m.heap.capacity
  return String.join (← objectDumps m 0 m.heap.used)

/-- Report the objects of the heap, which are looked at only where the event is kept. -/
def reportHeap : CheckedExec Unit := fun m ↦
  if m.run.log.admits .trace then
    (asking heapDump >>= fun dump ↦
      lift (Exec.onRun (Run.report (.heapContents dump)))) m
  else .ok () m

def makeRoom (fieldCount : Nat) : CheckedExec Unit := do
  lift <| Exec.report .warn fun m ↦
    .heapExhausted m.heap.used m.heap.capacity m.run.config.policy
  reportHeap
  lift fun m ↦
    match m.run.config.policy with
    | .abort => .error (.failed m.heapExhausted) m
    | .grow =>
      let m := { m with heap := m.heap.enlarge fieldCount }
      if m.heap.fits fieldCount then
        (Exec.report .debug fun m ↦ .heapGrown m.heap.capacity) m
      else .error (.failed m.heapExhausted) m

def alloc (shape : Word) (fields : Array Word) : CheckedExec Word := fun m ↦
  match m.heap.alloc? shape fields with
  | some (reference, heap) =>
    (do
      checkIndex m.heap.used m.heap.capacity
      checkIndex (m.heap.used + 1) m.heap.capacity
      checkRange (m.heap.used + headerCells) (m.heap.used + headerCells + fields.size)
        m.heap.capacity
      return reference) { m with heap }
  | none => .error (.stopped (.failed m.heapExhausted)) m

def place (shape : Word) (fields : Array Word) : CheckedExec Word := do
  if !(← lift (Exec.read fun m ↦ m.heap.fits fields.size)) then
    makeRoom fields.size
  alloc shape fields

def makeObject (shape : Word) : CheckedExec Unit := do
  let layout ← lift (Exec.query fun m ↦ m.run.dict.shape shape)
  let fields ← lastCells layout.size .missingInitializers
  let reference ← place shape fields
  lift (modify fun m ↦ { m with stack := m.stack.shrink (m.stack.size - layout.size) })
  lift (Exec.push reference)

def layoutOf (index : Nat) : CheckedExec Shape :=
  asking fun m ↦ do
    let word ← m.heap.checkedShapeWord index
    lift (MonadExcept.ofExcept (m.run.dict.shape word))

def readField (receiver : Word) (name : String) : CheckedExec Word := do
  match receiver.view with
  | .reference index =>
    match (← layoutOf index).slot? name with
    | some offset => asking fun m ↦ m.heap.checkedReadField index offset
    | none => return Word.undefined
  | _ =>
    let receiver ← decode receiver
    let value ← lift (Exec.query fun m ↦ m.run.readField receiver name)
    lift (Exec.encode value)

def writeField (receiver : Word) (name : String) (value : Word) : CheckedExec Unit := do
  match receiver.view with
  | .reference index =>
    match (← layoutOf index).slot? name with
    | some offset => do
      let heap ← asking fun m ↦ m.heap.checkedWriteField index offset value
      lift (modify fun m ↦ { m with heap })
    | none => lift (Exec.fail ⟨.invalidField name, {}⟩)
  | _ =>
    let receiver ← decode receiver
    let value ← decode value
    lift (Exec.onRun (Run.writeField receiver name value))

/-! ### Instructions -/

def perform (call : Caller) : Instruction → CheckedExec (Option Word)
  | .register word => do
    let name ← lift (Exec.name word)
    let value ← decode (← lift Exec.pop)
    lift (Exec.onRun (Run.setGlobal name value))
    return none
  | .load slot => do
    let index ← lift (Exec.query fun m ↦ m.slotCell slot)
    lift (Exec.push (← cell index))
    return none
  | .store slot => do
    let index ← lift (Exec.query fun m ↦ m.slotCell slot)
    setCell index (← lift Exec.pop)
    return none
  | .call argc => do
    callFunction call argc.toNat
    return none
  | .ret => returnFrom
  | .new shape => do
    makeObject shape
    return none
  | .get word => do
    let name ← lift (Exec.name word)
    lift (Exec.push (← readField (← lift Exec.pop) name))
    return none
  | .put word => do
    let name ← lift (Exec.name word)
    let value ← lift Exec.pop
    let receiver ← lift Exec.pop
    writeField receiver name value
    return none
  | i => lift (Exec.perform call i)

def performFetched (call : Caller) : Fetched → CheckedExec (Option Word)
  | .instruction i => perform call i
  | .truncated _ => lift (Exec.fail (.inconsistent .missingOperand))
  | .unknown word => lift (Exec.fail (.inconsistent (.unknownOpcode word)))

def step (call : Caller) : CheckedExec (Option Word) := fun m ↦
  let pc := m.pc
  match m.code.fetch? pc with
  | none => .error (.stopped (.failed (.inconsistent (.pastEnd pc)))) m
  | some fetched =>
    match (checkRange pc (pc + fetched.size) m.code.words.size >>= fun _ ↦
      performFetched call fetched) { m with pc := pc + fetched.size } with
    | .ok result m => .ok result m
    | .error (.stopped stop) m =>
      let note (failure : Failure) :=
        (failure.noteOp (fetched.mnemonic?.getD "?")).noteFunction m.function.name
          |>.noteLine (m.code.sourceLine pc)
      .error (.stopped (stop.mapFailure note)) m
    | .error (.fault fault) m => .error (.fault fault) m

/-! ### Runs -/

def run (call : Caller) : Nat → CheckedExec Word
  | 0 => lift fun m ↦ .error .unfinished m
  | steps + 1 => do
    match ← step call with
    | some result => return result
    | none => run call steps

def session (call : Caller) (steps : Nat) (receiver : Value) (args : List Value) :
    CheckedExec Value := do
  lift (Exec.enter receiver args)
  decode (← run call steps)

end Checked

end TandemScript
