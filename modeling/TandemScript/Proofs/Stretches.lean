import TandemScript.Proofs.Emission

/-!
# Stretches of code

How many words a node takes is known from the tree alone, and with it where the code of each node
stands. The body of a function literal is code of its own, so that its nodes have no place in the
code around the literal.
-/

namespace TandemScript

/-- How many values a node leaves. -/
def Expr.valueCount (e : Expr) : Nat :=
  if e.isInstruction then 0 else 1

theorem Expr.valueCount_of_instruction {e : Expr} (he : e.isInstruction = true) :
    e.valueCount = 0 :=
  if_pos he

theorem Expr.valueCount_of_value {e : Expr} (he : e.isInstruction = false) : e.valueCount = 1 :=
  if_neg (he ▸ Bool.false_ne_true)

mutual

/-- How many words the code of a node takes. -/
def Expr.codeSize : Expr → Nat
  | .block body => body.codeSize
  | .literal _ _ | .var _ _ | .function none _ _ _ => 2
  | .function (some _) _ _ _ => 5
  | .assign _ value _ _ => value.codeSize + 2
  | .call callee args _ => callee.codeSize + 2 + codeSizeOfArgs args + 2
  | .ret value _ => value.codeSize + 1
  | .cond test onTrue onFalse _ =>
    test.codeSize + 2 + onTrue.codeSize + 2 + onFalse.codeSize
  | .object fields _ => codeSizeOfFields fields + 2
  | .field receiver _ _ => receiver.codeSize + 2
  | .setField receiver _ value _ => receiver.codeSize + value.codeSize + 2
  | .method receiver _ args _ => receiver.codeSize + 4 + codeSizeOfArgs args + 2

def Block.codeSize : Block → Nat
  | .mk instrs _ => codeSizeOfInstrs instrs

/-- The values of these nodes are dropped, which takes a word each. -/
def codeSizeOfInstrs : List Expr → Nat
  | [] => 0
  | e :: rest => e.codeSize + e.valueCount + codeSizeOfInstrs rest

def codeSizeOfArgs : List Expr → Nat
  | [] => 0
  | e :: rest => e.codeSize + codeSizeOfArgs rest

/-- The value of a key that is given again is dropped. -/
def codeSizeOfFields : List (String × Expr) → Nat
  | [] => 0
  | (key, e) :: rest =>
    e.codeSize + (if (rest.map Prod.fst).contains key then 1 else 0) + codeSizeOfFields rest

end

/-- A node with the place of its code, and whether it is one of the nodes that make up a block. -/
structure Stretch where
  node : Expr
  start : Nat
  isStatement : Bool

/-- The place behind the code of the node. -/
def Stretch.stop (s : Stretch) : Nat :=
  s.start + s.node.codeSize

mutual

/-- A node and the nodes below it, with the places of their code. -/
def Expr.stretches (isStatement : Bool) (start : Nat) (e : Expr) : List Stretch :=
  ⟨e, start, isStatement⟩ :: match e with
  | .block body => body.stretches start
  | .literal _ _ | .var _ _ | .function _ _ _ _ => []
  | .assign _ value _ _ => value.stretches false start
  | .call callee args _ =>
    callee.stretches false start ++ stretchesOfArgs (start + callee.codeSize + 2) args
  | .ret value _ => value.stretches false start
  | .cond test onTrue onFalse _ =>
    let atTrue := start + test.codeSize + 2
    test.stretches false start ++ onTrue.stretches atTrue ++
      onFalse.stretches (atTrue + onTrue.codeSize + 2)
  | .object fields _ => stretchesOfFields start fields
  | .field receiver _ _ => receiver.stretches false start
  | .setField receiver _ value _ =>
    receiver.stretches false start ++ value.stretches false (start + receiver.codeSize)
  | .method receiver _ args _ =>
    receiver.stretches false start ++ stretchesOfArgs (start + receiver.codeSize + 4) args

def Block.stretches (start : Nat) : Block → List Stretch
  | .mk instrs _ => stretchesOfInstrs start instrs

def stretchesOfInstrs (start : Nat) : List Expr → List Stretch
  | [] => []
  | e :: rest =>
    e.stretches true start ++ stretchesOfInstrs (start + e.codeSize + e.valueCount) rest

def stretchesOfArgs (start : Nat) : List Expr → List Stretch
  | [] => []
  | e :: rest => e.stretches false start ++ stretchesOfArgs (start + e.codeSize) rest

def stretchesOfFields (start : Nat) : List (String × Expr) → List Stretch
  | [] => []
  | (key, e) :: rest =>
    let behind := start + e.codeSize + if (rest.map Prod.fst).contains key then 1 else 0
    e.stretches false start ++ stretchesOfFields behind rest

end

section Sizes

variable {dict : Dictionary}

mutual

/-- The code of a node takes the words that the tree tells. -/
theorem Expr.Emits.size_eq {site : Site} {start : Nat} {line : UInt32} {e : Expr}
    {code : Fragment} : e.Emits dict site start line code → code.size = e.codeSize
  | .block h => h.size_eq
  | .literal _ | .load _ | .lookup _ _ | .lambda _ _ | .named _ _ _ => rfl
  | .assign _ _ h | .field _ h _ => by
    rw [Fragment.size_append, h.size_eq]
    rfl
  | .call _ h hargs => by
    simp only [Fragment.size_append, h.size_eq, hargs.size_eq]
    rfl
  | .ret _ h => by
    rw [Fragment.size_append, h.size_eq]
    rfl
  | .cond _ h hTrue _ hFalse _ => by
    simp only [Fragment.size_append, h.size_eq, hTrue.size_eq, hFalse.size_eq]
    rfl
  | .object h _ => by
    rw [Fragment.size_append, h.size_eq]
    rfl
  | .setField _ h _ h' _ => by
    simp only [Fragment.size_append, h.size_eq, h'.size_eq]
    rfl
  | .method _ h _ hargs => by
    simp only [Fragment.size_append, h.size_eq, hargs.size_eq]
    rfl

theorem Block.Emits.size_eq {site : Site} {start : Nat} {line : UInt32} {body : Block}
    {code : Fragment} : body.Emits dict site start line code → code.size = body.codeSize
  | .mk h => h.size_eq

theorem EmitsInstrs.size_eq {site : Site} {start : Nat} {line : UInt32} {es : List Expr}
    {code : Fragment} : EmitsInstrs dict site start line es code → code.size = codeSizeOfInstrs es
  | .nil => rfl
  | .instruction he h hrest => by
    rw [Fragment.size_append, h.size_eq, hrest.size_eq, codeSizeOfInstrs,
      Expr.valueCount_of_instruction he]
    rfl
  | .value he h hrest => by
    simp only [Fragment.size_append, h.size_eq, hrest.size_eq, codeSizeOfInstrs,
      Expr.valueCount_of_value he]
    rfl

theorem EmitsArgs.size_eq {site : Site} {start : Nat} {line : UInt32} {es : List Expr}
    {code : Fragment} : EmitsArgs dict site start line es code → code.size = codeSizeOfArgs es
  | .nil => rfl
  | .cons _ h hrest => by rw [Fragment.size_append, h.size_eq, hrest.size_eq, codeSizeOfArgs]

theorem EmitsFields.size_eq {site : Site} {start : Nat} {line : UInt32}
    {fields : List (String × Expr)} {code : Fragment} :
    EmitsFields dict site start line fields code → code.size = codeSizeOfFields fields
  | .nil => rfl
  | .dropped hkey _ h hrest => by
    simp only [Fragment.size_append, h.size_eq, hrest.size_eq, codeSizeOfFields, hkey]
    rfl
  | .kept hkey _ h hrest => by
    simp only [Fragment.size_append, h.size_eq, hrest.size_eq, codeSizeOfFields, hkey]
    rfl

end

/-- A node with a value takes a word at least. -/
theorem Expr.codeSize_pos {e : Expr} (he : e.isInstruction = false) : 0 < e.codeSize := by
  cases e with
  | block _ | assign _ _ _ _ | setField _ _ _ _ | cond _ _ _ _ | ret _ _ => cases he
  | function name _ _ _ => cases name <;> exact Nat.succ_pos _
  | _ => exact Nat.succ_pos _

theorem EmitsArgs.length_le {site : Site} {start : Nat} {line : UInt32} {es : List Expr}
    {code : Fragment} (h : EmitsArgs dict site start line es code) : es.length ≤ code.size := by
  induction es generalizing start code with
  | nil => exact Nat.zero_le _
  | cons e rest ih =>
    cases h with
    | cons he hcode hrest =>
      have hpos := Expr.codeSize_pos he
      have hle := ih hrest
      rw [Fragment.size_append, hcode.size_eq, List.length_cons]
      omega

end Sizes

end TandemScript
