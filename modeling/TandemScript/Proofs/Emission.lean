import TandemScript.Compile
import TandemScript.Proofs.Interning

/-!
# Emitted code

The code of a tree as a relation. It says the same as the compiler about the instructions, but
about their operands it only says what they stand for in a dictionary, so that it goes on holding
while the dictionary grows.
-/

namespace TandemScript

/-- The value of a literal. -/
def Literal.value : Literal → Value
  | .int n => .int n
  | .str s => .str s

/-- The word that a value outside the heap has in every machine with this dictionary. -/
inductive Dictionary.Denotes (dict : Dictionary) : Word → Value → Prop
  | small {n : Int32} {word : Word} :
    Word.ofInt? n = some word → dict.Denotes word (.int n)
  | entry {value : Value} {word : Word} :
    dict.value word = .ok value → (∀ n, value = .int n → Word.ofInt? n = none) →
      dict.Denotes word value

theorem Dictionary.Denotes.mono {dict dict' : Dictionary} {word : Word} {value : Value}
    (h : dict.Denotes word value) (hgrows : dict.GrowsTo dict') : dict'.Denotes word value := by
  cases h with
  | small hword => exact .small hword
  | entry hvalue hlarge => exact .entry (hgrows.value hvalue) hlarge

/-- The instructions at the end of every function, behind those of its body. -/
def Fragment.epilogue (line : UInt32) : Fragment :=
  [(.const Word.undefined, line), (.ret, line)]

/-- The function with a piece of code. -/
def Fragment.function (fragment : Fragment) (id : Nat) (name : String) (params : List String)
    (scope : Shape) : Function :=
  ⟨id, name, .bytecode
    { words := fragment.words.toArray
      lines := fragment.lines.toArray
      arity := params.length + 1
      slots := scope.size }⟩

section Emits

variable (dict : Dictionary)

mutual

/-- A node for a position of the code, on the line that it has or that it takes over from the node
around it. -/
inductive Expr.Emits : Site → Nat → UInt32 → Expr → Fragment → Prop
  | block {site : Site} {start : Nat} {line : UInt32} {body : Block} {code : Fragment} :
    body.Emits site start line code →
    (Expr.block body).Emits site start line code
  | literal {site : Site} {start : Nat} {line : UInt32} {value : Literal} {l : UInt32}
      {word : Word} :
    dict.Denotes word value.value →
    (Expr.literal value l).Emits site start line [(.const word, line)]
  | load {site : Site} {start : Nat} {line : UInt32} {name : String} {l : UInt32} {slot : Nat} :
    site.slot? name = some slot →
    (Expr.var name l).Emits site start line [(.load (.ofNat slot), line)]
  | lookup {site : Site} {start : Nat} {line : UInt32} {name : String} {l : UInt32} {word : Word} :
    site.slot? name = none →
    dict.value word = .ok (.str name) →
    (Expr.var name l).Emits site start line [(.lookup word, line)]
  | assign {site : Site} {start : Nat} {line : UInt32} {name : String} {value : Expr}
      {declares : Bool} {l : UInt32} {slot : Nat} {code : Fragment} :
    site.slot? name = some slot →
    value.isInstruction = false →
    value.Emits site start (value.lineWithin line) code →
    (Expr.assign name value declares l).Emits site start line
      (code ++ [(.store (.ofNat slot), line)])
  | lambda {site : Site} {start : Nat} {line : UInt32} {params : List String} {body : Block}
      {l : UInt32} {f : Function} {word : Word} :
    body.EmitsFunction site.scopes Function.anonymous params f →
    dict.value word = .ok (.function f) →
    (Expr.function none params body l).Emits site start line [(.const word, line)]
  | named {site : Site} {start : Nat} {line : UInt32} {name : String} {params : List String}
      {body : Block} {l : UInt32} {f : Function} {word nameWord : Word} :
    body.EmitsFunction site.scopes name params f →
    dict.value word = .ok (.function f) →
    dict.value nameWord = .ok (.str name) →
    (Expr.function (some name) params body l).Emits site start line
      [(.const word, line), (.dup, line), (.register nameWord, line)]
  | call {site : Site} {start : Nat} {line : UInt32} {callee : Expr} {args : List Expr} {l : UInt32}
      {code operands : Fragment} :
    callee.isInstruction = false →
    callee.Emits site start (callee.lineWithin line) code →
    EmitsArgs site (start + code.size + 2) line args operands →
    (Expr.call callee args l).Emits site start line
      (code ++ [(.const Word.undefined, line)] ++ operands ++ [(.call (.ofNat args.length), line)])
  | ret {site : Site} {start : Nat} {line : UInt32} {value : Expr} {l : UInt32} {code : Fragment} :
    value.isInstruction = false →
    value.Emits site start (value.lineWithin line) code →
    (Expr.ret value l).Emits site start line (code ++ [(.ret, line)])
  | cond {site : Site} {start : Nat} {line : UInt32} {test : Expr} {onTrue onFalse : Block}
      {l : UInt32} {decision whenTrue whenFalse : Fragment} {atFalse after : Nat} :
    test.isInstruction = false →
    test.Emits site start (test.lineWithin line) decision →
    onTrue.Emits site (start + decision.size + 2) line whenTrue →
    atFalse = start + decision.size + 2 + whenTrue.size + 2 →
    onFalse.Emits site atFalse line whenFalse →
    after = atFalse + whenFalse.size →
    (Expr.cond test onTrue onFalse l).Emits site start line
      (decision ++ [(.jumpIfFalse (.ofNat atFalse), line)] ++ whenTrue ++
        [(.goto (.ofNat after), line)] ++ whenFalse)
  | object {site : Site} {start : Nat} {line : UInt32} {fields : List (String × Expr)} {l : UInt32}
      {code : Fragment} {word : Word} :
    EmitsFields site start line fields code →
    dict.shape word = .ok (.ofKeys (fields.map Prod.fst)) →
    (Expr.object fields l).Emits site start line (code ++ [(.new word, line)])
  | field {site : Site} {start : Nat} {line : UInt32} {receiver : Expr} {name : String} {l : UInt32}
      {code : Fragment} {word : Word} :
    receiver.isInstruction = false →
    receiver.Emits site start (receiver.lineWithin line) code →
    dict.value word = .ok (.str name) →
    (Expr.field receiver name l).Emits site start line (code ++ [(.get word, line)])
  | setField {site : Site} {start : Nat} {line : UInt32} {receiver : Expr} {name : String}
      {value : Expr} {l : UInt32} {target code : Fragment} {word : Word} :
    receiver.isInstruction = false →
    receiver.Emits site start (receiver.lineWithin line) target →
    value.isInstruction = false →
    value.Emits site (start + target.size) (value.lineWithin line) code →
    dict.value word = .ok (.str name) →
    (Expr.setField receiver name value l).Emits site start line
      (target ++ code ++ [(.put word, line)])
  | method {site : Site} {start : Nat} {line : UInt32} {receiver : Expr} {name : String}
      {args : List Expr} {l : UInt32} {target operands : Fragment} {word : Word} :
    receiver.isInstruction = false →
    receiver.Emits site start (receiver.lineWithin line) target →
    dict.value word = .ok (.str name) →
    EmitsArgs site (start + target.size + 4) line args operands →
    (Expr.method receiver name args l).Emits site start line
      (target ++ [(.dup, line), (.get word, line), (.swap, line)] ++ operands ++
        [(.call (.ofNat args.length), line)])

/-- A block. -/
inductive Block.Emits : Block → Site → Nat → UInt32 → Fragment → Prop
  | mk {site : Site} {start : Nat} {line : UInt32} {instrs : List Expr} {l : UInt32}
      {code : Fragment} :
    EmitsInstrs site start line instrs code →
    (Block.mk instrs l).Emits site start line code

/-- A function that stands inside some scopes. -/
inductive Block.EmitsFunction : Block → List Shape → String → List String → Function → Prop
  | mk {outer : List Shape} {id : Nat} {name : String} {params : List String} {instrs : List Expr}
      {line : UInt32} {code : Fragment} :
    EmitsInstrs ⟨name, .ofFunction params (.mk instrs line) :: outer⟩ 0 line instrs code →
    (Block.mk instrs line).EmitsFunction outer name params
      (Fragment.function (code ++ Fragment.epilogue line) id name params
        (.ofFunction params (.mk instrs line)))

/-- Nodes whose values, if they have any, are dropped. -/
inductive EmitsInstrs : Site → Nat → UInt32 → List Expr → Fragment → Prop
  | nil {site : Site} {start : Nat} {line : UInt32} : EmitsInstrs site start line [] []
  | instruction {site : Site} {start : Nat} {line : UInt32} {e : Expr} {rest : List Expr}
      {code others : Fragment} :
    e.isInstruction = true →
    e.Emits site start (e.lineWithin line) code →
    EmitsInstrs site (start + code.size) line rest others →
    EmitsInstrs site start line (e :: rest) (code ++ others)
  | value {site : Site} {start : Nat} {line : UInt32} {e : Expr} {rest : List Expr}
      {code others : Fragment} :
    e.isInstruction = false →
    e.Emits site start (e.lineWithin line) code →
    EmitsInstrs site (start + code.size + 1) line rest others →
    EmitsInstrs site start line (e :: rest) (code ++ [(.pop, line)] ++ others)

/-- Nodes whose values stay on the stack. -/
inductive EmitsArgs : Site → Nat → UInt32 → List Expr → Fragment → Prop
  | nil {site : Site} {start : Nat} {line : UInt32} : EmitsArgs site start line [] []
  | cons {site : Site} {start : Nat} {line : UInt32} {e : Expr} {rest : List Expr}
      {code others : Fragment} :
    e.isInstruction = false →
    e.Emits site start (e.lineWithin line) code →
    EmitsArgs site (start + code.size) line rest others →
    EmitsArgs site start line (e :: rest) (code ++ others)

/-- The initializers of an object literal. The value of a key that is given again is dropped. -/
inductive EmitsFields : Site → Nat → UInt32 → List (String × Expr) → Fragment → Prop
  | nil {site : Site} {start : Nat} {line : UInt32} : EmitsFields site start line [] []
  | dropped {site : Site} {start : Nat} {line : UInt32} {key : String} {e : Expr}
      {rest : List (String × Expr)} {code others : Fragment} :
    (rest.map Prod.fst).contains key = true →
    e.isInstruction = false →
    e.Emits site start (e.lineWithin line) code →
    EmitsFields site (start + code.size + 1) line rest others →
    EmitsFields site start line ((key, e) :: rest) (code ++ [(.pop, line)] ++ others)
  | kept {site : Site} {start : Nat} {line : UInt32} {key : String} {e : Expr}
      {rest : List (String × Expr)} {code others : Fragment} :
    (rest.map Prod.fst).contains key = false →
    e.isInstruction = false →
    e.Emits site start (e.lineWithin line) code →
    EmitsFields site (start + code.size) line rest others →
    EmitsFields site start line ((key, e) :: rest) (code ++ others)

end

end Emits

section Mono

variable {dict dict' : Dictionary}

mutual

theorem Expr.Emits.mono {site : Site} {start : Nat} {line : UInt32} {e : Expr} {code : Fragment}
    (hgrows : dict.GrowsTo dict') :
    e.Emits dict site start line code → e.Emits dict' site start line code
  | .block h => .block (h.mono hgrows)
  | .literal hword => .literal (hword.mono hgrows)
  | .load hslot => .load hslot
  | .lookup hslot hword => .lookup hslot (hgrows.value hword)
  | .assign hslot hvalue h => .assign hslot hvalue (h.mono hgrows)
  | .lambda h hword => .lambda (h.mono hgrows) (hgrows.value hword)
  | .named h hword hname => .named (h.mono hgrows) (hgrows.value hword) (hgrows.value hname)
  | .call hcallee h hargs => .call hcallee (h.mono hgrows) (hargs.mono hgrows)
  | .ret hvalue h => .ret hvalue (h.mono hgrows)
  | .cond htest h hTrue hatFalse hFalse hafter =>
    .cond htest (h.mono hgrows) (hTrue.mono hgrows) hatFalse (hFalse.mono hgrows) hafter
  | .object h hword => .object (h.mono hgrows) (hgrows.shape hword)
  | .field hreceiver h hword => .field hreceiver (h.mono hgrows) (hgrows.value hword)
  | .setField hreceiver h hvalue h' hword =>
    .setField hreceiver (h.mono hgrows) hvalue (h'.mono hgrows) (hgrows.value hword)
  | .method hreceiver h hword hargs =>
    .method hreceiver (h.mono hgrows) (hgrows.value hword) (hargs.mono hgrows)

theorem Block.Emits.mono {site : Site} {start : Nat} {line : UInt32} {body : Block}
    {code : Fragment} (hgrows : dict.GrowsTo dict') :
    body.Emits dict site start line code → body.Emits dict' site start line code
  | .mk h => .mk (h.mono hgrows)

theorem Block.EmitsFunction.mono {body : Block} {outer : List Shape} {name : String}
    {params : List String} {f : Function} (hgrows : dict.GrowsTo dict') :
    body.EmitsFunction dict outer name params f → body.EmitsFunction dict' outer name params f
  | .mk h => .mk (h.mono hgrows)

theorem EmitsInstrs.mono {site : Site} {start : Nat} {line : UInt32} {es : List Expr}
    {code : Fragment} (hgrows : dict.GrowsTo dict') :
    EmitsInstrs dict site start line es code → EmitsInstrs dict' site start line es code
  | .nil => .nil
  | .instruction he h hrest => .instruction he (h.mono hgrows) (hrest.mono hgrows)
  | .value he h hrest => .value he (h.mono hgrows) (hrest.mono hgrows)

theorem EmitsArgs.mono {site : Site} {start : Nat} {line : UInt32} {es : List Expr}
    {code : Fragment} (hgrows : dict.GrowsTo dict') :
    EmitsArgs dict site start line es code → EmitsArgs dict' site start line es code
  | .nil => .nil
  | .cons he h hrest => .cons he (h.mono hgrows) (hrest.mono hgrows)

theorem EmitsFields.mono {site : Site} {start : Nat} {line : UInt32}
    {fields : List (String × Expr)} {code : Fragment} (hgrows : dict.GrowsTo dict') :
    EmitsFields dict site start line fields code → EmitsFields dict' site start line fields code
  | .nil => .nil
  | .dropped hkey he h hrest => .dropped hkey he (h.mono hgrows) (hrest.mono hgrows)
  | .kept hkey he h hrest => .kept hkey he (h.mono hgrows) (hrest.mono hgrows)

end

end Mono

end TandemScript
