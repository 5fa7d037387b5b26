import TandemScript.Syntax.Tree

/-!
# Declared variables

The variables that a function body declares. Blocks and conditionals do not open scopes, so the
names are collected from both branches of a conditional; function literals inside the body have
scopes of their own, and values cannot declare anything.
-/

namespace TandemScript

mutual

/-- The names that an instruction declares, in source order and as often as it does. -/
def Expr.declared : Expr → List String
  | .block body => body.declared
  | .cond _ onTrue onFalse _ => onTrue.declared ++ onFalse.declared
  | .assign name _ true _ => [name]
  | _ => []

/-- The names that a block declares. -/
def Block.declared : Block → List String
  | .mk instrs _ => declaredIn instrs

/-- The names that some instructions declare. -/
def declaredIn : List Expr → List String
  | [] => []
  | e :: rest => e.declared ++ declaredIn rest

end

end TandemScript
