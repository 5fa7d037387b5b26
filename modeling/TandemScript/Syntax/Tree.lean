/-!
# Program trees

The syntax tree of the language. Every node carries the source line it came from, and line zero
means that the line is not known. Instructions are the nodes that leave no value: blocks,
assignments to variables and fields, conditionals and returns.
-/

namespace TandemScript

/-- A constant in the source. -/
inductive Literal where
  | int (n : Int32)
  | str (s : String)
  deriving DecidableEq, Repr, Inhabited

mutual

/-- Expressions evaluated in order for their effects. -/
inductive Block where
  | mk (instrs : List Expr) (line : UInt32)

/-- A node of the tree. -/
inductive Expr where
  | block (body : Block)
  | literal (value : Literal) (line : UInt32)
  /-- A read of a variable: of the function itself, of a function around it, or global. -/
  | var (name : String) (line : UInt32)
  /-- `var name = value` where `declares` holds, and `name = value` where it does not. -/
  | assign (name : String) (value : Expr) (declares : Bool) (line : UInt32)
  | function (name : Option String) (params : List String) (body : Block) (line : UInt32)
  | call (callee : Expr) (args : List Expr) (line : UInt32)
  | ret (value : Expr) (line : UInt32)
  | cond (test : Expr) (onTrue onFalse : Block) (line : UInt32)
  /-- An object literal, its keys in source order. -/
  | object (fields : List (String × Expr)) (line : UInt32)
  | field (receiver : Expr) (name : String) (line : UInt32)
  | setField (receiver : Expr) (name : String) (value : Expr) (line : UInt32)
  | method (receiver : Expr) (name : String) (args : List Expr) (line : UInt32)

end

deriving instance BEq, Inhabited for Block, Expr

/-- A whole program: its top-level block is the body of the function `main`. -/
structure Script where
  body : Block
  deriving BEq, Inhabited

namespace Block

def instructions : Block → List Expr
  | mk instrs _ => instrs

def line : Block → UInt32
  | mk _ line => line

end Block

namespace Expr

/-- The line of a node. -/
def line : Expr → UInt32
  | block body => body.line
  | literal _ line | var _ line | assign _ _ _ line | function _ _ _ line | call _ _ line
  | ret _ line | cond _ _ _ line | object _ line | field _ _ line | setField _ _ _ line
  | method _ _ _ line => line

/-- The same node on another line. The nodes below it keep theirs. -/
def onLine (line : UInt32) : Expr → Expr
  | block body => block (.mk body.instructions line)
  | literal value _ => literal value line
  | var name _ => var name line
  | assign name value declares _ => assign name value declares line
  | function name params body _ => function name params body line
  | call callee args _ => call callee args line
  | ret value _ => ret value line
  | cond test onTrue onFalse _ => cond test onTrue onFalse line
  | object fields _ => object fields line
  | field receiver name _ => field receiver name line
  | setField receiver name value _ => setField receiver name value line
  | method receiver name args _ => method receiver name args line

/-- Whether a node leaves no value. -/
def isInstruction : Expr → Bool
  | block _ | assign .. | setField .. | cond .. | ret .. => true
  | _ => false

end Expr

namespace Block

/-- A block on the line of its first instruction. -/
def ofList (instrs : List Expr) : Block :=
  .mk instrs ((instrs.head?.map Expr.line).getD 0)

/-- The block without instructions, on no known line. -/
def empty : Block :=
  .mk [] 0

end Block

/-! ## Building trees

Nodes without a line, for hosts that put trees together themselves. -/

namespace Expr

def int (n : Int32) : Expr :=
  literal (.int n) 0

def str (s : String) : Expr :=
  literal (.str s) 0

def read (name : String) : Expr :=
  var name 0

def declare (name : String) (value : Expr) : Expr :=
  assign name value true 0

def set (name : String) (value : Expr) : Expr :=
  assign name value false 0

def apply (callee : Expr) (args : List Expr) : Expr :=
  call callee args 0

/-- The call of a global function, such as `+` or `print`. -/
def applyGlobal (name : String) (args : List Expr) : Expr :=
  apply (read name) args

def lambda (name : Option String) (params : List String) (body : List Expr) : Expr :=
  function name params (.ofList body) 0

def returning (value : Expr) : Expr :=
  ret value 0

def branch (test : Expr) (onTrue onFalse : List Expr) : Expr :=
  cond test (.ofList onTrue) (.ofList onFalse) 0

def objectOf (fields : List (String × Expr)) : Expr :=
  object fields 0

def get (receiver : Expr) (name : String) : Expr :=
  field receiver name 0

def put (receiver : Expr) (name : String) (value : Expr) : Expr :=
  setField receiver name value 0

def send (receiver : Expr) (name : String) (args : List Expr) : Expr :=
  method receiver name args 0

end Expr

/-- The program with these top-level instructions. -/
def Script.ofList (body : List Expr) : Script :=
  ⟨.ofList body⟩

/-! ## Walking trees -/

mutual

/-- A node and all nodes below it, each before its own parts and in source order. -/
def Expr.nodes : Expr → List Expr
  | e@(.block body) => e :: body.nodes
  | e@(.literal ..) => [e]
  | e@(.var ..) => [e]
  | e@(.assign _ value _ _) => e :: value.nodes
  | e@(.function _ _ body _) => e :: body.nodes
  | e@(.call callee args _) => e :: (callee.nodes ++ nodesOfList args)
  | e@(.ret value _) => e :: value.nodes
  | e@(.cond test onTrue onFalse _) => e :: (test.nodes ++ onTrue.nodes ++ onFalse.nodes)
  | e@(.object fields _) => e :: nodesOfFields fields
  | e@(.field receiver _ _) => e :: receiver.nodes
  | e@(.setField receiver _ value _) => e :: (receiver.nodes ++ value.nodes)
  | e@(.method receiver _ args _) => e :: (receiver.nodes ++ nodesOfList args)

/-- The nodes of a block. -/
def Block.nodes : Block → List Expr
  | .mk instrs _ => nodesOfList instrs

/-- The nodes of some expressions in order. -/
def nodesOfList : List Expr → List Expr
  | [] => []
  | e :: rest => e.nodes ++ nodesOfList rest

/-- The nodes of the initializers of an object literal. -/
def nodesOfFields : List (String × Expr) → List Expr
  | [] => []
  | (_, e) :: rest => e.nodes ++ nodesOfFields rest

end

end TandemScript
