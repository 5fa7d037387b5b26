import TandemScript.Instruction
import TandemScript.Run
import TandemScript.Syntax.Declared

/-!
# Compiling

From program trees to code. A node that has a value leaves it on top of the stack, a node that has
none leaves the stack as it was. Jumps name positions of the code, so a piece of code is compiled
for the place where it will stand. A function only sees its own variables: a name that it does not
declare is global, also where an enclosing function has a variable of that name, which is worth a
warning.
-/

namespace TandemScript

/-! ## Pieces of code -/

/-- Instructions with their source lines. -/
abbrev Fragment := List (Instruction × UInt32)

namespace Fragment

/-- How many words a piece of code takes. -/
def size : Fragment → Nat
  | [] => 0
  | (i, _) :: rest => i.size + size rest

def words (fragment : Fragment) : List UInt32 :=
  fragment.flatMap fun (i, _) ↦ i.words

/-- The source line of each word. -/
def lines (fragment : Fragment) : List UInt32 :=
  fragment.flatMap fun (i, line) ↦ List.replicate i.size line

theorem length_words (fragment : Fragment) : fragment.words.length = fragment.size := by
  induction fragment with
  | nil => rfl
  | cons head rest ih =>
    rw [words, List.flatMap_cons, List.length_append, Instruction.length_words]
    exact congrArg _ ih

theorem length_lines (fragment : Fragment) : fragment.lines.length = fragment.size := by
  induction fragment with
  | nil => rfl
  | cons head rest ih =>
    rw [lines, List.flatMap_cons, List.length_append, List.length_replicate]
    exact congrArg _ ih

theorem size_append (a b : Fragment) : size (a ++ b) = a.size + b.size := by
  induction a with
  | nil => exact (Nat.zero_add _).symm
  | cons head rest ih =>
    change head.1.size + size (rest ++ b) = head.1.size + size rest + b.size
    rw [ih, Nat.add_assoc]

end Fragment

/-! ## Slots -/

/-- The scope of a function without local variables: the receiver, then the parameters. -/
def Shape.ofParams (params : List String) : Shape :=
  params.foldl append (empty.declare "this")

/-- The scope of a function: a variable that the body declares gets a slot unless its name has
one. -/
def Shape.ofFunction (params : List String) (body : Block) : Shape :=
  (ofParams params).declareAll body.declared

/-! ## Compiling -/

/-- Compiling changes the dictionary and the log, and uses up numbers. -/
abbrev Compile := EStateM Failure Pool

/-- The function that a piece of code belongs to. -/
structure Site where
  function : String
  /-- The scopes around the code, that of the function itself first. -/
  scopes : List Shape

namespace Compile

/-- The word of a value. -/
def constant (value : Value) : Compile Word := fun pool ↦
  let dict := pool.dict
  let pool := { pool with dict := ⟨#[]⟩ }
  match Dictionary.intern value dict with
  | .ok word dict => .ok word { pool with dict }
  | .error failure dict => .error failure { pool with dict }

/-- The word of a name. -/
def name (s : String) : Compile Word :=
  constant (.str s)

def report (event : Event) : Compile Unit :=
  modify fun pool ↦ { pool with log := pool.log.add event }

/-- A number that no function and no shape has. -/
def freshId : Compile Nat :=
  modifyGet fun pool ↦ (pool.nextId, { pool with nextId := pool.nextId + 1 })

/-- The function of some code. -/
def function (name : String) (params : List String) (scope : Shape) (fragment : Fragment) :
    Compile Function := do
  report (.compiled name params.length scope.size fragment.size)
  let id ← freshId
  return ⟨id, name, .bytecode
    { words := fragment.words.toArray
      lines := fragment.lines.toArray
      arity := params.length + 1
      slots := scope.size }⟩

end Compile

namespace Site

/-- The slot of a variable of the function itself. -/
def slot? (site : Site) (name : String) : Option Nat := do
  (← site.scopes.head?).slot? name

def fail {α : Type} (site : Site) (line : UInt32) (cause : Cause) : Compile α :=
  throw ((⟨cause, {}⟩ : Failure).noteFunction site.function |>.noteLine line)

/-- Refuse a node without a value where a value is used. -/
def needsValue (site : Site) (line : UInt32) (e : Expr) : Compile Unit :=
  if e.isInstruction then site.fail line (.inconsistent .instructionAsValue) else return

/-- Warn about a global name that an enclosing function has as a variable. -/
def warnIfOuter (site : Site) (line : UInt32) (name : String) : Compile Unit :=
  match Shape.nearest? name site.scopes with
  | some (hops, _) => Compile.report (.notCaptured name site.function hops line)
  | none => return

/-- Read a variable. -/
def readVar (site : Site) (line : UInt32) (name : String) : Compile Fragment :=
  match site.slot? name with
  | some slot => return [(.load (.ofNat slot), line)]
  | none => do
    site.warnIfOuter line name
    return [(.lookup (← Compile.name name), line)]

end Site

/-- Push a literal. Only integers that are not negative need no entry of the dictionary. -/
def Literal.compile (line : UInt32) : Literal → Compile Fragment
  | .int n =>
    match Word.ofInt? n with
    | some word => return [(.const word, line)]
    | none => return [(.const (← Compile.constant (.int n)), line)]
  | .str s => return [(.const (← Compile.constant (.str s)), line)]

/-- The line of a node: its own, or that of the node around it. -/
def Expr.lineWithin (line : UInt32) (e : Expr) : UInt32 :=
  if e.line = 0 then line else e.line

mutual

/-- Compile a node for a position of the code. -/
def Expr.compile (site : Site) (start : Nat) (outer : UInt32) (e : Expr) : Compile Fragment :=
  let line := e.lineWithin outer
  match e with
  | .block body => body.compile site start line
  | .literal value _ => value.compile line
  | .var name _ => site.readVar line name
  | .assign name value _ _ =>
    match site.slot? name with
    | none => site.fail line (.undefinedVariable name)
    | some slot => do
      site.needsValue line value
      let code ← value.compile site start line
      return code ++ [(.store (.ofNat slot), line)]
  | .function name params body _ => do
    let function ← body.compileBody site.scopes (name.getD Function.anonymous) params
    let word ← Compile.constant (.function function)
    match name with
    | none => return [(.const word, line)]
    | some name =>
      return [(.const word, line), (.dup, line), (.register (← Compile.name name), line)]
  | .call callee args _ => do
    site.needsValue line callee
    let code ← callee.compile site start line
    let code := code ++ [(.const Word.undefined, line)]
    let operands ← compileArgs site (start + code.size) line args
    return code ++ operands ++ [(.call (.ofNat args.length), line)]
  | .ret value _ => do
    site.needsValue line value
    let code ← value.compile site start line
    return code ++ [(.ret, line)]
  | .cond test onTrue onFalse _ => do
    site.needsValue line test
    let decision ← test.compile site start line
    let atTrue := start + decision.size + 2
    let whenTrue ← onTrue.compile site atTrue line
    let atFalse := atTrue + whenTrue.size + 2
    let whenFalse ← onFalse.compile site atFalse line
    let after := atFalse + whenFalse.size
    return decision ++ [(.jumpIfFalse (.ofNat atFalse), line)] ++ whenTrue ++
      [(.goto (.ofNat after), line)] ++ whenFalse
  | .object fields _ => do
    let code ← compileFields site start line fields
    let word ← Compile.constant (.shape (← Compile.freshId) (.ofKeys (fields.map Prod.fst)))
    return code ++ [(.new word, line)]
  | .field receiver name _ => do
    site.needsValue line receiver
    let code ← receiver.compile site start line
    return code ++ [(.get (← Compile.name name), line)]
  | .setField receiver name value _ => do
    site.needsValue line receiver
    let target ← receiver.compile site start line
    site.needsValue line value
    let code ← value.compile site (start + target.size) line
    return target ++ code ++ [(.put (← Compile.name name), line)]
  | .method receiver name args _ => do
    site.needsValue line receiver
    let target ← receiver.compile site start line
    let code := target ++
      [(.dup, line), (.get (← Compile.name name), line), (.swap, line)]
    let operands ← compileArgs site (start + code.size) line args
    return code ++ operands ++ [(.call (.ofNat args.length), line)]

/-- Compile a block. -/
def Block.compile (site : Site) (start : Nat) (line : UInt32) : Block → Compile Fragment
  | .mk instrs _ => compileInstrs site start line instrs

/-- Compile the body of a function literal, or of the program itself. -/
def Block.compileBody (outer : List Shape) (name : String) (params : List String) :
    Block → Compile Function
  | .mk instrs line => do
    let scope := Shape.ofFunction params (.mk instrs line)
    let code ← compileInstrs ⟨name, scope :: outer⟩ 0 line instrs
    Compile.function name params scope
      (code ++ [(.const Word.undefined, line), (.ret, line)])

/-- Compile nodes whose values, if they have any, are dropped. -/
def compileInstrs (site : Site) (start : Nat) (line : UInt32) : List Expr → Compile Fragment
  | [] => return []
  | e :: rest => do
    let code ← e.compile site start line
    let code := if e.isInstruction then code else code ++ [(.pop, line)]
    return code ++ (← compileInstrs site (start + code.size) line rest)

/-- Compile nodes whose values stay on the stack. -/
def compileArgs (site : Site) (start : Nat) (line : UInt32) : List Expr → Compile Fragment
  | [] => return []
  | e :: rest => do
    site.needsValue line e
    let code ← e.compile site start line
    return code ++ (← compileArgs site (start + code.size) line rest)

/-- Compile the initializers of an object literal. The value of a key that is given again is
dropped. -/
def compileFields (site : Site) (start : Nat) (line : UInt32) :
    List (String × Expr) → Compile Fragment
  | [] => return []
  | (key, e) :: rest => do
    site.needsValue line e
    let code ← e.compile site start line
    let code := if (rest.map Prod.fst).contains key then code ++ [(.pop, line)] else code
    return code ++ (← compileFields site (start + code.size) line rest)

end

/-- Compile a function that stands inside some scopes, innermost first. -/
def Block.compileAs (name : Option String) (params : List String) (body : Block)
    (enclosing : List Shape := []) : Compile Function :=
  body.compileBody enclosing (name.getD Function.anonymous) params

/-- Compile a program. -/
def Script.compile (script : Script) : Compile Function :=
  script.body.compileAs (some "main") []

end TandemScript
