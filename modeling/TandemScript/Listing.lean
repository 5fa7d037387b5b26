import TandemScript.Dictionary
import TandemScript.Instruction
import TandemScript.Text.Columns

/-!
# Listings

The bytecode of a function as text, followed by every function that it loads as a constant, depth
first and each once. Any words can be listed, whether a compiler has made them or not.
-/

namespace TandemScript

namespace Listing

/-- The operand of `CONST`. -/
def constantText (dict : Dictionary) (records : Records) (word : Word) : String :=
  match word.view with
  | .small n => toString n
  | .reference index => s!"@{index}"
  | .entry index =>
    match dict.get? index with
    | some (.function f) => s!"<fn {f.name}>"
    | some value => value.dump records
    | none => s!"<bad constant d{index}>"

def shapeText (dict : Dictionary) (word : Word) : String :=
  match dict.shape word with
  | .ok shape => shape.text
  | .error _ => "<bad shape 0x" ++ Text.hexadecimal word.bits.toNat ++ ">"

def nameText (dict : Dictionary) (word : Word) : String :=
  match dict.string word with
  | .ok s => s
  | .error _ => "<bad name 0x" ++ Text.hexadecimal word.bits.toNat ++ ">"

/-- A position of the code in four digits. -/
def position (n : Nat) : String :=
  Text.alignRight 4 (toString n) '0'

/-- The operand of an instruction, if it takes one. -/
def operandText? (dict : Dictionary) (records : Records) : Instruction → Option String
  | .const word => some (constantText dict records word)
  | .new word => some (shapeText dict word)
  | .lookup word | .register word | .get word | .put word => some (nameText dict word)
  | .load slot | .store slot => some s!"slot {slot}"
  | .call argc => some s!"argc {argc}"
  | .goto target | .jumpIfFalse target => some ("-> " ++ position target.toNat)
  | .dup | .pop | .swap | .ret => none

/-- An operation and its operand in columns. -/
def columns (op : Opcode) (operand : String) : String :=
  Text.alignLeft 14 op.mnemonic ++ " " ++ operand

/-- What stands at a position of the code. -/
def fetchedText (dict : Dictionary) (records : Records) : Fetched → String
  | .unknown word => s!"Unknown opcode {word}"
  | .truncated op => columns op "<missing operand>"
  | .instruction i =>
    match operandText? dict records i with
    | some operand => columns i.opcode operand
    | none => i.opcode.mnemonic

/-- The source line of a position, or a bar where it is that of the word before. -/
def lineText (code : Code) (offset : Nat) : String :=
  let line := code.sourceLine offset
  if 0 < offset ∧ line = code.sourceLine (offset - 1) then "   |"
  else Text.alignRight 4 (toString line)

/-- One line of a section. -/
def lineOf (dict : Dictionary) (records : Records) (code : Code) (offset : Nat)
    (fetched : Fetched) : String :=
  position offset ++ " " ++ lineText code offset ++ " " ++ fetchedText dict records fetched ++ "\n"

/-- The listing of one function. -/
def sectionText (dict : Dictionary) (records : Records) (name : String) (code : Code) : String :=
  let header := s!"== {name} (params: {code.arity - 1}, slots: {code.slots}) ==\n"
  header ++ String.join (code.sweep.map fun (offset, fetched) ↦
    lineOf dict records code offset fetched)

/-! ## Which functions are listed -/

/-- The function that an instruction loads as a constant. -/
def loaded? (dict : Dictionary) : Fetched → Option Function
  | .instruction (.const word) =>
    match word.asEntry?.bind dict.get? with
    | some (.function f) => some f
    | _ => none
  | _ => none

/-- The functions that some code loads as constants, in order. -/
def loadedBy (dict : Dictionary) (code : Code) : List Function :=
  code.sweep.filterMap fun (_, fetched) ↦ loaded? dict fetched

/-- A compiled function with its code. -/
abbrev Compiled := Function × Code

/-- The functions with code among some functions. -/
def compiledOf (functions : List Function) : List Compiled :=
  functions.filterMap fun f ↦ f.code?.map fun code ↦ (f, code)

/-- Visit functions depth first, at most `count` new ones, and append them to those visited. -/
def visit (dict : Dictionary) : (count : Nat) → (visited todo : List Compiled) → List Compiled
  | 0, visited, _ => visited
  | count + 1, visited, todo =>
    match todo.dropWhile fun (f, _) ↦ visited.any fun (g, _) ↦ g.id = f.id with
    | [] => visited
    | (f, code) :: rest =>
      visit dict count (visited ++ [(f, code)]) (compiledOf (loadedBy dict code) ++ rest)

end Listing

/-- The listing of a function and of all that it loads. The others are entries of the dictionary,
which bounds their number. -/
def Function.listing (dict : Dictionary) (records : Records) (f : Function) : String :=
  let functions := Listing.visit dict (dict.size + 1) [] (Listing.compiledOf [f])
  "\n".intercalate (functions.map fun (g, code) ↦
    Listing.sectionText dict records g.name code)

end TandemScript
