import TandemScript.Machine.State

/-!
# Steps of a machine

What each instruction does. A function of the machine is called inside it, by a new window on the
stack; any other function is called outside, with values instead of words.
-/

namespace TandemScript

namespace Exec

/-! ## Calls -/

/-- Give the function whose parameters end the stack the rest of its window: undefined variables,
and how to go back. -/
def completeWindow (bp slots : Nat) (savedBp savedPc function : Word) : Exec Unit := fun m ↦
  let linkStart := bp + slots
  if m.stackLimit < linkStart + linkCells then .error (.failed m.stackExhausted) m
  else
    let locals := m.stack.shrink linkStart
    let locals := locals ++ Array.replicate (linkStart - locals.size) Word.undefined
    .ok () { m with stack := ((locals.push savedBp).push savedPc).push function }

/-- Call a function outside the machine. Its result takes the place of the call window. -/
def callOutside (call : Caller) (callee : Function) (base argc : Nat) : Exec Unit := do
  let receiver ← decode (← cell (base - 1))
  let args ← decodeCells base argc
  report .debug fun _ ↦ .nativeCall callee.name argc
  let result ← encode (← onRun (call callee receiver args))
  truncate (base - 2)
  push result

/-- Go on with the code of a function whose parameters end the stack. -/
def callInside (callee : Function) (code : Code) (base argc : Nat) : Exec Unit := do
  if code.arity ≠ argc + 1 then
    fail ⟨.arityMismatch callee.name (code.arity - 1) argc, {}⟩
  else do
    let bp ← read Machine.bp
    let pc ← read Machine.pc
    let caller ← onRun (Run.onDict (Dictionary.intern (.function (← read Machine.function))))
    completeWindow (base - 1) code.slots (.small bp) (.small pc) caller
    modify fun m ↦ { m with bp := base - 1, pc := 0, function := callee, code }
    report .trace fun m ↦ .called m.function.name m.stackDump

/-- Call the function below a receiver and arguments. -/
def callFunction (call : Caller) (argc : Nat) : Exec Unit := do
  let base ← query fun m ↦
    if m.stack.size < argc + 2 then .error (.inconsistent .windowUnderflow)
    else .ok (m.stack.size - argc)
  match ← decode (← cell (base - 2)) with
  | .function callee =>
    match callee.code? with
    | some code => callInside callee code base argc
    | none => callOutside call callee base argc
  | other => typeError "function" other

/-- Go back to the caller with a result, or end with it where there is no caller. -/
def returnFrom : Exec (Option Word) := do
  let result ← pop
  let savedPc ← query fun m ↦ m.savedNumber (m.linkStart + 1)
  if savedPc = 0 then return some result
  else do
    let savedBp ← query fun m ↦ m.savedNumber m.linkStart
    let caller ← query fun m ↦ m.cell (m.linkStart + 2) >>= m.run.dict.function
    match caller.code? with
    | none => fail (.inconsistent (.noBytecode caller.name))
    | some code => do
      modify fun m ↦
        let stack := if m.bp = 0 then m.stack else m.stack.shrink (m.bp - 1)
        { m with stack, pc := savedPc, bp := savedBp, function := caller, code }
      push result
      report .trace fun m ↦ .returned m.function.name m.stackDump
      return none

/-! ## Objects -/

/-- Make room for an object that does not fit, as far as the policy allows. -/
def makeRoom (fieldCount : Nat) : Exec Unit := do
  report .warn fun m ↦ .heapExhausted m.heap.used m.heap.capacity m.run.config.policy
  report .trace fun m ↦ .heapContents m.heapDump
  fun m ↦
    match m.run.config.policy with
    | .abort => .error (.failed m.heapExhausted) m
    | .grow =>
      let m := { m with heap := m.heap.enlarge fieldCount }
      if m.heap.fits fieldCount then
        (report .debug fun m ↦ .heapGrown m.heap.capacity) m
      else .error (.failed m.heapExhausted) m

/-- Put an object into the heap. -/
def alloc (shape : Word) (fields : Array Word) : Exec Word := fun m ↦
  match m.heap.alloc? shape fields with
  | some (reference, heap) => .ok reference { m with heap }
  | none => .error (.failed m.heapExhausted) m

/-- Put an object into the heap, after making room for it where it does not fit. -/
def place (shape : Word) (fields : Array Word) : Exec Word := do
  if !(← read fun m ↦ m.heap.fits fields.size) then makeRoom fields.size
  alloc shape fields

/-- Replace the field values at the top by an object. -/
def makeObject (shape : Word) : Exec Unit := do
  let layout ← query fun m ↦ m.run.dict.shape shape
  let fields ← lastCells layout.size .missingInitializers
  let reference ← place shape fields
  modify fun m ↦ { m with stack := m.stack.shrink (m.stack.size - layout.size) }
  push reference

/-- The shape of an object of the heap. -/
def layoutOf (index : Nat) : Exec Shape :=
  query fun m ↦ m.heap.shapeWord index >>= m.run.dict.shape

/-- The field of an object, which is read in the heap where it lies there. -/
def readField (receiver : Word) (name : String) : Exec Word := do
  match receiver.view with
  | .reference index =>
    match (← layoutOf index).slot? name with
    | some offset => query fun m ↦ m.heap.readField index offset
    | none => return Word.undefined
  | _ =>
    let receiver ← decode receiver
    let value ← query fun m ↦ m.run.readField receiver name
    encode value

/-- Write the field of an object, in the heap where it lies there. -/
def writeField (receiver : Word) (name : String) (value : Word) : Exec Unit := do
  match receiver.view with
  | .reference index =>
    match (← layoutOf index).slot? name with
    | some offset => fun m ↦
      match m.heap.writeField index offset value with
      | .ok heap => .ok () { m with heap }
      | .error failure => .error (.failed failure) m
    | none => fail ⟨.invalidField name, {}⟩
  | _ =>
    let receiver ← decode receiver
    let value ← decode value
    onRun (Run.writeField receiver name value)

/-! ## Instructions -/

/-- Do what an instruction says. There is a result where the outermost function returns. -/
def perform (call : Caller) : Instruction → Exec (Option Word)
  | .const word => do
    push word
    return none
  | .lookup word => do
    let name ← name word
    push (← encode (← read fun m ↦ m.run.global name))
    return none
  | .register word => do
    let name ← name word
    let value ← decode (← pop)
    onRun (Run.setGlobal name value)
    return none
  | .load slot => do
    let index ← query fun m ↦ m.slotCell slot
    push (← cell index)
    return none
  | .store slot => do
    let index ← query fun m ↦ m.slotCell slot
    setCell index (← pop)
    return none
  | .dup => do
    push (← top)
    return none
  | .pop => do
    let _ ← pop
    return none
  | .swap => do
    let first ← pop
    let second ← pop
    modify fun m ↦ { m with stack := (m.stack.push first).push second }
    return none
  | .call argc => do
    callFunction call argc.toNat
    return none
  | .ret => returnFrom
  | .goto target => do
    modify fun m ↦ { m with pc := target.toNat }
    return none
  | .jumpIfFalse target => do
    if (← pop) = Word.zero then
      modify fun m ↦ { m with pc := target.toNat }
    return none
  | .new shape => do
    makeObject shape
    return none
  | .get word => do
    let name ← name word
    push (← readField (← pop) name)
    return none
  | .put word => do
    let name ← name word
    let value ← pop
    let receiver ← pop
    writeField receiver name value
    return none

/-- Do what stands at a position of the code. -/
def performFetched (call : Caller) : Fetched → Exec (Option Word)
  | .instruction i => perform call i
  | .truncated _ => fail (.inconsistent .missingOperand)
  | .unknown word => fail (.inconsistent (.unknownOpcode word))

/-- Take one step. A failure is noted the operation, the function that runs then, and the line of
the position in the code of that function. -/
def step (call : Caller) : Exec (Option Word) := fun m ↦
  let pc := m.pc
  match m.code.fetch? pc with
  | none => .error (.failed (.inconsistent (.pastEnd pc))) m
  | some fetched =>
    match performFetched call fetched { m with pc := pc + fetched.size } with
    | .ok result m => .ok result m
    | .error stop m =>
      let note (failure : Failure) :=
        (failure.noteOp (fetched.mnemonic?.getD "?")).noteFunction m.function.name
          |>.noteLine (m.code.sourceLine pc)
      .error (stop.mapFailure note) m

end Exec

end TandemScript
