import TandemScript.Compile

/-!
# Pieces of code in their places

A piece of code stands at a position of some code if the code is made of instructions before it,
its own ones, and instructions behind it. Where an instruction stands, it is what is fetched.
-/

namespace TandemScript

namespace Fragment

theorem words_append (a b : Fragment) : words (a ++ b) = a.words ++ b.words :=
  List.flatMap_append

theorem lines_append (a b : Fragment) : lines (a ++ b) = a.lines ++ b.lines :=
  List.flatMap_append

end Fragment

theorem Instruction.size_pos (i : Instruction) : 0 < i.size := by
  unfold size
  split <;> omega

namespace Code

/-- The piece of code stands at the position. -/
def Contains (code : Code) (start : Nat) (fragment : Fragment) : Prop :=
  ∃ before after : Fragment, before.size = start ∧
    code.words = (Fragment.words (before ++ fragment ++ after)).toArray ∧
    code.lines = (Fragment.lines (before ++ fragment ++ after)).toArray

namespace Contains

variable {code : Code} {start : Nat} {a b : Fragment}

theorem left (h : code.Contains start (a ++ b)) : code.Contains start a := by
  obtain ⟨before, after, hsize, hwords, hlines⟩ := h
  refine ⟨before, b ++ after, hsize, ?_, ?_⟩
  · rw [hwords]
    simp only [List.append_assoc]
  · rw [hlines]
    simp only [List.append_assoc]

theorem right (h : code.Contains start (a ++ b)) : code.Contains (start + a.size) b := by
  obtain ⟨before, after, hsize, hwords, hlines⟩ := h
  refine ⟨before ++ a, after, by rw [Fragment.size_append, hsize], ?_, ?_⟩
  · rw [hwords]
    simp only [List.append_assoc]
  · rw [hlines]
    simp only [List.append_assoc]

theorem le_size (h : code.Contains start a) : start + a.size ≤ code.words.size := by
  obtain ⟨before, after, hsize, hwords, -⟩ := h
  rw [hwords, List.size_toArray, Fragment.length_words, Fragment.size_append,
    Fragment.size_append, hsize]
  omega

/-- The code does not end before the next instruction. -/
theorem next_le {i : Instruction} {line : UInt32} {rest : Fragment} {next : Nat}
    (h : code.Contains start ((i, line) :: rest)) (hnext : i.size = next) :
    start + next ≤ code.words.size := by
  have hle := (left (b := rest) (a := [(i, line)]) h).le_size
  have hsize : Fragment.size [(i, line)] = i.size := Nat.add_zero _
  omega

theorem getElem?_words (before fragment after : Fragment) (offset : Nat)
    (hoffset : offset < fragment.size) :
    (Fragment.words (before ++ fragment ++ after))[before.size + offset]? =
      fragment.words[offset]? := by
  have hbefore := before.length_words
  have hfragment := fragment.length_words
  rw [Fragment.words_append, Fragment.words_append, List.append_assoc,
    List.getElem?_append_right (by omega), List.getElem?_append_left (by omega)]
  congr 1
  omega

theorem getElem?_lines (before fragment after : Fragment) (offset : Nat)
    (hoffset : offset < fragment.size) :
    (Fragment.lines (before ++ fragment ++ after))[before.size + offset]? =
      fragment.lines[offset]? := by
  have hbefore := before.length_lines
  have hfragment := fragment.length_lines
  rw [Fragment.lines_append, Fragment.lines_append, List.append_assoc,
    List.getElem?_append_right (by omega), List.getElem?_append_left (by omega)]
  congr 1
  omega

/-- An instruction is fetched where it stands. -/
theorem fetch? {i : Instruction} {line : UInt32} {rest : Fragment}
    (h : code.Contains start ((i, line) :: rest)) :
    code.fetch? start = some (.instruction i) := by
  have hone : code.Contains start [(i, line)] := left (b := rest) h
  obtain ⟨before, after, rfl, hwords, -⟩ := hone
  have hpos := i.size_pos
  have hsize : Fragment.size [(i, line)] = i.size := Nat.add_zero _
  have hi : Fragment.words [(i, line)] = i.words := List.append_nil _
  have hfirst : code.words[before.size]? = some i.opcode.word := by
    have hget := getElem?_words before [(i, line)] after 0 (by omega)
    rw [hwords, List.getElem?_toArray]
    rw [hi] at hget
    exact hget
  unfold Code.fetch?
  simp only [hfirst, Opcode.ofWord?_word]
  split
  · next htakes =>
    have htwo : i.size = 2 := by
      unfold Instruction.size
      rw [if_pos htakes]
    have hsecond : code.words[before.size + 1]? = i.operand? := by
      have hget := getElem?_words before [(i, line)] after 1 (by omega)
      rw [hwords, List.getElem?_toArray, hget, hi]
      unfold Instruction.words
      cases i.operand? <;> rfl
    rw [hsecond]
    cases i <;> first | rfl | simp [Instruction.opcode, Opcode.takesOperand] at htakes
  · next htakes =>
    cases i <;> first | rfl | simp [Instruction.opcode, Opcode.takesOperand] at htakes

/-- What is fetched where an instruction stands is this instruction. -/
theorem eq_of_fetch? {i j : Instruction} {line : UInt32} {rest : Fragment}
    (h : code.Contains start ((i, line) :: rest))
    (hfetch : code.fetch? start = some (.instruction j)) : i = j :=
  Fetched.instruction.inj (Option.some.inj (h.fetch?.symm.trans hfetch))

/-- The first word of an instruction has its line. -/
theorem sourceLine {i : Instruction} {line : UInt32} {rest : Fragment}
    (h : code.Contains start ((i, line) :: rest)) : code.sourceLine start = line := by
  have hone : code.Contains start [(i, line)] := left (b := rest) h
  obtain ⟨before, after, rfl, -, hlines⟩ := hone
  have hpos := i.size_pos
  have hsize : Fragment.size [(i, line)] = i.size := Nat.add_zero _
  have hget := getElem?_lines before [(i, line)] after 0 (by omega)
  rw [Nat.add_zero] at hget
  unfold Code.sourceLine
  rw [Array.getD_eq_getD_getElem?, hlines, List.getElem?_toArray, hget]
  have hi : Fragment.lines [(i, line)] = List.replicate i.size line := List.append_nil _
  rw [hi, List.getElem?_replicate, if_pos hpos]
  rfl

/-- The whole code of a function. -/
theorem all (fragment : Fragment) (arity slots : Nat) :
    Contains ⟨fragment.words.toArray, fragment.lines.toArray, arity, slots⟩ 0 fragment :=
  ⟨[], [], rfl, by simp, by simp⟩

end Contains

end Code

end TandemScript
