import TandemScript.Proofs.Heights
import TandemScript.Proofs.Refusal

/-!
# Well-formed bytecode

The code of every compiled function, as anything that reads its words from first to last finds it:
whole instructions up to the epilogue, jumps to instructions further on, operands that name what
they should, and one height of the stack for each instruction, by whatever way it is reached. The
nodes of the body have their stretches of the code, at the ends of which the heights differ by the
value of the node. All of this goes on holding while the dictionary grows.
-/

namespace TandemScript

/-! ## Reading code from first to last -/

/-- The instructions of a piece of code at their positions. -/
def Fragment.placed (start : Nat) : Fragment → List (Nat × Instruction)
  | [] => []
  | (i, _) :: rest => (start, i) :: placed (start + i.size) rest

theorem Fragment.placed_append (start : Nat) (a b : Fragment) :
    placed start (a ++ b) = a.placed start ++ b.placed (start + a.size) := by
  induction a generalizing start with
  | nil => rfl
  | cons head rest ih =>
    rw [List.cons_append, placed, ih, placed, List.cons_append, Nat.add_assoc]
    rfl

theorem Fragment.mem_placed {start pc : Nat} {fragment : Fragment} {i : Instruction} :
    (pc, i) ∈ fragment.placed start ↔ ∃ (before : Fragment) (line : UInt32) (behind : Fragment),
      fragment = before ++ (i, line) :: behind ∧ pc = start + before.size := by
  constructor
  · intro h
    induction fragment generalizing start with
    | nil => cases h
    | cons head rest ih =>
      rcases List.mem_cons.mp h with h | h
      · obtain ⟨rfl, rfl⟩ := Prod.mk.inj h
        exact ⟨[], head.2, rest, rfl, rfl⟩
      · obtain ⟨before, line, behind, rfl, rfl⟩ := ih h
        exact ⟨head :: before, line, behind, rfl, Nat.add_assoc ..⟩
  · rintro ⟨before, line, behind, rfl, rfl⟩
    rw [placed_append]
    exact List.mem_append_right _ List.mem_cons_self

theorem Fragment.length_le_size (fragment : Fragment) : fragment.length ≤ fragment.size := by
  induction fragment with
  | nil => exact Nat.le_refl _
  | cons head rest ih =>
    have hpos := head.1.size_pos
    change rest.length + 1 ≤ head.1.size + Fragment.size rest
    omega

namespace Code

variable {code : Code}

theorem Contains.sweepFrom {start count : Nat} {fragment : Fragment}
    (h : code.Contains start fragment) (hend : start + fragment.size = code.words.size)
    (hcount : fragment.length ≤ count) :
    code.sweepFrom start count = (fragment.placed start).map (Prod.map id .instruction) := by
  induction fragment generalizing start count with
  | nil =>
    have hnone : code.fetch? start = none := by
      have hword : code.words[start]? = none := Array.getElem?_eq_none (Nat.le_of_eq hend.symm)
      unfold Code.fetch?
      rw [hword]
    cases count with
    | zero => rfl
    | succ count =>
      rw [Code.sweepFrom, hnone]
      rfl
  | cons head rest ih =>
    obtain ⟨count, rfl⟩ := Nat.exists_eq_add_of_le' (Nat.lt_of_lt_of_le (Nat.succ_pos _) hcount)
    rw [Code.sweepFrom, h.fetch?]
    have hrest := ih (h.right (a := [head])) ((Nat.add_assoc ..).trans hend)
      (Nat.le_of_succ_le_succ hcount)
    exact congrArg _ hrest

/-- Code that is all one piece is read as the instructions of this piece. -/
theorem Contains.sweep {fragment : Fragment} (h : code.Contains 0 fragment)
    (hend : fragment.size = code.words.size) :
    code.sweep = (fragment.placed 0).map (Prod.map id .instruction) :=
  h.sweepFrom ((Nat.zero_add _).trans hend) (hend ▸ fragment.length_le_size)

/-- The instruction is found at the position as the code is read. -/
def Holds (code : Code) (pc : Nat) (i : Instruction) : Prop :=
  (pc, .instruction i) ∈ code.sweep

theorem Contains.holds_iff {fragment : Fragment} (h : code.Contains 0 fragment)
    (hend : fragment.size = code.words.size) {pc : Nat} {i : Instruction} :
    code.Holds pc i ↔ ∃ (before : Fragment) (line : UInt32) (behind : Fragment),
      fragment = before ++ (i, line) :: behind ∧ pc = before.size := by
  unfold Holds
  rw [h.sweep hend, List.mem_map]
  constructor
  · rintro ⟨⟨pc', i'⟩, hmem, heq⟩
    obtain ⟨rfl, hi⟩ := Prod.mk.inj heq
    obtain rfl := Fetched.instruction.inj hi
    obtain ⟨before, line, behind, rfl, hpc⟩ := Fragment.mem_placed.mp hmem
    exact ⟨before, line, behind, rfl, hpc.trans (Nat.zero_add _)⟩
  · rintro ⟨before, line, behind, rfl, rfl⟩
    exact ⟨(before.size, i), Fragment.mem_placed.mpr
      ⟨before, line, behind, rfl, (Nat.zero_add _).symm⟩, rfl⟩

end Code

/-! ## Heights -/

/-- Where code goes on behind an instruction. -/
def Instruction.successors (pc : Nat) : Instruction → List Nat
  | ret => []
  | goto target => [target.toNat]
  | jumpIfFalse target => [pc + 2, target.toNat]
  | i => [pc + i.size]

/-- The height of each position of a piece of code. -/
def Fragment.heightAt (dict : Dictionary) (height : Nat) : Fragment → Nat → Nat
  | [], _ => height
  | (i, _) :: rest, offset =>
    if offset = 0 then height
    else heightAt dict (i.heightAfter dict height) rest (offset - i.size)

theorem Fragment.heightAt_size (dict : Dictionary) (height : Nat) (before behind : Fragment) :
    heightAt dict height (before ++ behind) before.size = before.heightAfter dict height := by
  induction before generalizing height with
  | nil =>
    cases behind with
    | nil => rfl
    | cons head rest => exact if_pos rfl
  | cons head rest ih =>
    have hpos := head.1.size_pos
    change heightAt dict height (head :: (rest ++ behind)) (head.1.size + Fragment.size rest) = _
    rw [heightAt, if_neg (by omega), Nat.add_sub_cancel_left, ih]
    rfl

namespace Code

/-- A way through the code from its beginning comes to the position with so many operands. -/
inductive Walks (code : Code) (dict : Dictionary) : Nat → Nat → Prop
  | start : Walks code dict 0 0
  | step {pc height next : Nat} {i : Instruction} : code.Walks dict pc height →
    code.Holds pc i → next ∈ i.successors pc → Walks code dict next (i.heightAfter dict height)

/-- There are so many operands at the instructions of the code: none at the beginning, as many
behind an instruction as it leaves, never less than are taken, and one at a return. -/
structure HasHeights (code : Code) (dict : Dictionary) (height : Nat → Nat) : Prop where
  start : height 0 = 0
  takes : ∀ pc i, code.Holds pc i → i.taken dict ≤ height pc
  returns : ∀ pc, code.Holds pc .ret → height pc = 1
  goesOn : ∀ pc i next, code.Holds pc i → next ∈ i.successors pc →
    (∃ j, code.Holds next j) ∧ height next = i.heightAfter dict (height pc)

/-- All ways to an instruction come to it with the same number of operands. -/
theorem HasHeights.eq_of_walks {code : Code} {dict : Dictionary} {height : Nat → Nat}
    (h : code.HasHeights dict height) {pc found : Nat} (hwalks : code.Walks dict pc found) :
    found = height pc := by
  induction hwalks with
  | start => exact h.start.symm
  | step _ hholds hnext ih => rw [(h.goesOn _ _ _ hholds hnext).2, ih]

end Code

/-! ## Nodes of a function -/

mutual

/-- The stretches are those of all nodes that are part of the function. -/
theorem Expr.map_node_stretches (isStatement : Bool) (start : Nat) (e : Expr) :
    (e.stretches isStatement start).map Stretch.node = e.ownNodes := by
  cases e with
  | block body =>
    exact congrArg _ (body.map_node_stretches start)
  | literal _ _ | var _ _ | function _ _ _ _ => rfl
  | assign _ value _ _ => exact congrArg _ (value.map_node_stretches false start)
  | ret value _ => exact congrArg _ (value.map_node_stretches false start)
  | field receiver _ _ => exact congrArg _ (receiver.map_node_stretches false start)
  | object fields _ => exact congrArg _ (map_node_stretchesOfFields start fields)
  | call callee args _ | method callee _ args _ =>
    simp only [Expr.stretches, Expr.ownNodes, List.map_cons, List.map_append,
      callee.map_node_stretches, map_node_stretchesOfArgs]
  | cond test onTrue onFalse _ =>
    simp only [Expr.stretches, Expr.ownNodes, List.map_cons, List.map_append,
      test.map_node_stretches, Block.map_node_stretches]
  | setField receiver _ value _ =>
    simp only [Expr.stretches, Expr.ownNodes, List.map_cons, List.map_append,
      receiver.map_node_stretches, value.map_node_stretches]

theorem Block.map_node_stretches (start : Nat) (body : Block) :
    (body.stretches start).map Stretch.node = body.ownNodes := by
  cases body with
  | mk instrs _ => exact map_node_stretchesOfInstrs start instrs

theorem map_node_stretchesOfInstrs (start : Nat) (es : List Expr) :
    (stretchesOfInstrs start es).map Stretch.node = ownNodesOfList es := by
  cases es with
  | nil => rfl
  | cons e rest =>
    rw [stretchesOfInstrs, List.map_append, e.map_node_stretches,
      map_node_stretchesOfInstrs _ rest, ownNodesOfList]

theorem map_node_stretchesOfArgs (start : Nat) (es : List Expr) :
    (stretchesOfArgs start es).map Stretch.node = ownNodesOfList es := by
  cases es with
  | nil => rfl
  | cons e rest =>
    rw [stretchesOfArgs, List.map_append, e.map_node_stretches,
      map_node_stretchesOfArgs _ rest, ownNodesOfList]

theorem map_node_stretchesOfFields (start : Nat) (fields : List (String × Expr)) :
    (stretchesOfFields start fields).map Stretch.node = ownNodesOfFields fields := by
  cases fields with
  | nil => rfl
  | cons field rest =>
    rw [stretchesOfFields, List.map_append, field.2.map_node_stretches,
      map_node_stretchesOfFields _ rest, ownNodesOfFields]

end

/-- The stretch of a node in some code. The node adds its value to the operands, and a node of a
block finds none. -/
structure Stretch.IsIn (s : Stretch) (code : Code) (dict : Dictionary) (site : Site)
    (height : Nat → Nat) : Prop where
  emits : ∃ line fragment, s.node.Emits dict site s.start line fragment ∧
    code.Contains s.start fragment
  starts : ∃ i, code.Holds s.start i
  stops : ∃ i, code.Holds s.stop i
  adds : height s.stop = height s.start + s.node.valueCount
  statement : s.isStatement = true → height s.start = 0

/-! ## Well-formed code -/

/-- The code of a body, in a dictionary that it was compiled for, with the heights of the stack at
its instructions. -/
structure Code.WellFormed (code : Code) (dict : Dictionary) (site : Site) (body : Block)
    (height : Nat → Nat) : Prop where
  lines : code.lines.size = code.words.size
  /-- The words are whole instructions, the last two of them those of the epilogue. -/
  swept : ∃ front last, last + 3 = code.words.size ∧
    code.sweep = (front ++ [(last, .const Word.undefined), (last + 2, .ret)]).map
      (Prod.map id .instruction)
  arity : code.arity ≤ code.slots
  names : ∀ pc i, code.Holds pc i → i.Names dict code.slots
  jumps : ∀ pc i target, code.Holds pc i → i.target? = some target →
    pc < target ∧ ∃ j, code.Holds target j
  heights : code.HasHeights dict height
  nodes : ∀ s ∈ body.stretches 0, s.IsIn code dict site height

/-! ## The code of a body with its epilogue -/

theorem Instruction.mem_successors {pc next : Nat} {i : Instruction} (h : next ∈ i.successors pc) :
    i.target? = some next ∨ i ≠ .ret ∧ next = pc + i.size := by
  cases i with
  | ret => cases h
  | goto target => exact .inl (congrArg some (List.mem_singleton.mp h).symm)
  | jumpIfFalse target =>
    rcases List.mem_cons.mp h with h | h
    · exact .inr ⟨by simp, h⟩
    · exact .inl (congrArg some (List.mem_singleton.mp h).symm)
  | _ => exact .inr ⟨by simp, List.mem_singleton.mp h⟩

theorem Instruction.mem_successors_of_target? {pc target : Nat} {i : Instruction}
    (h : i.target? = some target) : target ∈ i.successors pc := by
  cases i with
  | goto _ | jumpIfFalse _ =>
    obtain rfl := Option.some.inj h
    simp [successors]
  | _ => cases h

namespace Fragment

variable {dict : Dictionary} {slots start height after : Nat} {fragment before behind : Fragment}
  {i : Instruction} {line line' : UInt32}

/-- What is known of an instruction within a piece of code. -/
theorem Carries.inside
    (h : Carries dict slots start height (before ++ (i, line) :: behind) after) :
    i.Fits dict slots (before.heightAfter dict height) ∧
      i.Lands dict (start + before.size) (before.heightAfter dict height) behind := by
  cases h.right with
  | cons hfits hlands _ => exact ⟨hfits, hlands⟩

theorem epilogue_carries (line : UInt32) (hundefined : dict.value Word.undefined = .ok .undefined) :
    Carries dict slots start 0 (epilogue line) 0 :=
  .cons ⟨⟨_, .entry hundefined (by simp)⟩, Nat.le_refl _, by simp⟩ (.of_target? rfl)
    (.cons ⟨trivial, Nat.le_refl _, fun _ ↦ rfl⟩ (.of_target? rfl) .nil)

/-- An instruction stands in the body or is one of the epilogue. -/
theorem split_epilogue (h : fragment ++ epilogue line = before ++ (i, line') :: behind) :
    (∃ others, fragment = before ++ (i, line') :: others ∧ behind = others ++ epilogue line) ∨
      i = .const Word.undefined ∧ behind = [(.ret, line)] ∨ i = .ret ∧ behind = [] := by
  have hlast : ∀ more : Fragment, epilogue line = more ++ (i, line') :: behind →
      i = .const Word.undefined ∧ behind = [(.ret, line)] ∨ i = .ret ∧ behind = [] := by
    intro more hmore
    rcases more with - | ⟨first, - | ⟨second, more⟩⟩
    · obtain ⟨hconst, hret⟩ := List.cons.inj hmore
      exact .inl ⟨(Prod.mk.inj hconst).1.symm, hret.symm⟩
    · obtain ⟨-, hret⟩ := List.cons.inj hmore
      obtain ⟨hret, hnil⟩ := List.cons.inj hret
      exact .inr ⟨(Prod.mk.inj hret).1.symm, hnil.symm⟩
    · simp [epilogue] at hmore
  rcases List.append_eq_append_iff.mp h with ⟨more, -, hmore⟩ | ⟨others, hfragment, hothers⟩
  · exact .inr (hlast more hmore)
  · cases others with
    | nil => exact .inr (hlast [] hothers.symm)
    | cons head others =>
      obtain ⟨rfl, rfl⟩ := List.cons.inj hothers
      exact .inl ⟨others, hfragment, rfl⟩

/-- Behind an instruction of a function, code goes on at an instruction, with the height that the
first one leaves. Jumps go forward. -/
theorem Carries.goesOn (h : Carries dict slots 0 height fragment after)
    (hsplit : fragment ++ epilogue line = before ++ (i, line') :: behind) {next : Nat}
    (hnext : next ∈ i.successors before.size) :
    before.size < next ∧ ∃ passed more : Fragment, more ≠ [] ∧
      fragment ++ epilogue line = passed ++ more ∧
      next = passed.size ∧
      passed.heightAfter dict height = i.heightAfter dict (before.heightAfter dict height) := by
  have hpos := i.size_pos
  rcases Instruction.mem_successors hnext with htarget | ⟨hret, rfl⟩
  · rcases split_epilogue hsplit with ⟨others, rfl, rfl⟩ | ⟨rfl, -⟩ | ⟨rfl, -⟩
    · obtain ⟨skipped, others, rfl, rfl, hsame⟩ := h.inside.2 next htarget
      refine ⟨by omega, before ++ (i, line') :: skipped, others ++ epilogue line,
        by simp [epilogue], by simp only [List.append_assoc, List.cons_append], ?_, ?_⟩
      · rw [size_append, Nat.zero_add, Nat.add_assoc]
        rfl
      · rw [heightAfter_append]
        exact hsame
    · cases htarget
    · cases htarget
  · refine ⟨by omega, before ++ [(i, line')], behind, ?_, hsplit.trans (List.append_cons ..), ?_,
      ?_⟩
    · rcases split_epilogue hsplit with ⟨others, -, rfl⟩ | ⟨-, rfl⟩ | ⟨rfl, -⟩
      · simp [epilogue]
      · simp
      · exact absurd rfl hret
    · rw [size_append]
      rfl
    · rw [heightAfter_append]
      rfl

end Fragment

section Whole

variable {code : Code} {dict : Dictionary} {site : Site} {fragment : Fragment} {line : UInt32}
  (hcode : code.Contains 0 (fragment ++ Fragment.epilogue line))
  (hend : Fragment.size (fragment ++ Fragment.epilogue line) = code.words.size)

include hcode hend

theorem Code.Contains.exists_holds {passed more : Fragment}
    (hpassed : fragment ++ Fragment.epilogue line = passed ++ more) (hmore : more ≠ []) :
    ∃ j, code.Holds passed.size j := by
  obtain ⟨head, rest, rfl⟩ := List.exists_cons_of_ne_nil hmore
  exact ⟨head.1, (hcode.holds_iff hend).mpr ⟨passed, head.2, rest, hpassed, rfl⟩⟩

/-- Behind an instruction of a function, code goes on at an instruction further on. -/
theorem Fragment.Carries.next {after : Nat} (h : Carries dict code.slots 0 0 fragment after)
    {pc next : Nat} {i : Instruction} (hholds : code.Holds pc i) (hnext : next ∈ i.successors pc) :
    pc < next ∧ (∃ j, code.Holds next j) ∧
      heightAt dict 0 (fragment ++ epilogue line) next =
        i.heightAfter dict (heightAt dict 0 (fragment ++ epilogue line) pc) := by
  obtain ⟨before, line', behind, hsplit, rfl⟩ := (hcode.holds_iff hend).mp hholds
  obtain ⟨hlt, passed, more, hmore, hpassed, rfl, hsame⟩ := h.goesOn hsplit hnext
  refine ⟨hlt, hcode.exists_holds hend hpassed hmore, ?_⟩
  rw [hpassed, heightAt_size, hsame, ← hpassed, hsplit, heightAt_size]

theorem Fragment.Carries.fits (h : Carries dict code.slots 0 0 fragment 0)
    (hundefined : dict.value Word.undefined = .ok .undefined) {pc : Nat} {i : Instruction}
    (hholds : code.Holds pc i) :
    i.Fits dict code.slots (heightAt dict 0 (fragment ++ epilogue line) pc) := by
  obtain ⟨before, line', behind, hsplit, rfl⟩ := (hcode.holds_iff hend).mp hholds
  have hwhole := h.append (epilogue_carries line hundefined)
  rw [hsplit] at hwhole ⊢
  rw [heightAt_size]
  exact hwhole.inside.1

theorem Fragment.Spans.isIn {stretches : List Stretch}
    (h : Spans dict code.slots site 0 0 fragment 0 stretches) {s : Stretch} (hs : s ∈ stretches) :
    s.IsIn code dict site (heightAt dict 0 (fragment ++ epilogue line)) := by
  obtain ⟨before, own, behind, rfl, hstands⟩ := h.stands s hs
  obtain ⟨line', hemits⟩ := hstands.emits
  have hstart : s.start = before.size := hstands.start_eq.trans (Nat.zero_add _)
  have hstop : s.stop = size (before ++ own) := by
    rw [Stretch.stop, hstart, ← hemits.size_eq, size_append]
  have hbefore : before ++ own ++ behind ++ epilogue line =
      before ++ (own ++ behind ++ epilogue line) := by
    simp only [List.append_assoc]
  have hthrough : before ++ own ++ behind ++ epilogue line =
      before ++ own ++ (behind ++ epilogue line) :=
    List.append_assoc ..
  have hatStart := heightAt_size dict 0 before (own ++ behind ++ epilogue line)
  have hatStop := heightAt_size dict 0 (before ++ own) (behind ++ epilogue line)
  rw [← hbefore, ← hstart] at hatStart
  rw [← hthrough, ← hstop, heightAfter_append] at hatStop
  refine ⟨⟨line', own, hemits, ?_⟩, ?_, ?_, ?_, fun hs ↦ ?_⟩
  · rw [hstart]
    have hown := hcode.left.left.right
    rwa [Nat.zero_add] at hown
  · rw [hstart]
    exact hcode.exists_holds hend hbefore (by simp [epilogue])
  · rw [hstop]
    exact hcode.exists_holds hend hthrough (by simp [epilogue])
  · rw [hatStart, hatStop]
    exact hstands.adds
  · rw [hatStart]
    exact hstands.statement hs

/-- A body that leaves no operands, with the epilogue behind it, is well-formed code. -/
theorem Fragment.Spans.wellFormed {body : Block}
    (h : Spans dict code.slots site 0 0 fragment 0 (body.stretches 0))
    (hlines : code.lines.size = code.words.size) (harity : code.arity ≤ code.slots)
    (hundefined : dict.value Word.undefined = .ok .undefined) :
    code.WellFormed dict site body (heightAt dict 0 (fragment ++ epilogue line)) where
  lines := hlines
  swept := by
    refine ⟨fragment.placed 0, fragment.size, ?_, ?_⟩
    · rw [← hend, size_append]
      rfl
    · rw [hcode.sweep hend, placed_append, Nat.zero_add]
      rfl
  arity := harity
  names pc i hholds := (h.carries.fits hcode hend hundefined hholds).names
  jumps pc i target hholds htarget := by
    have hnext : target ∈ i.successors pc := Instruction.mem_successors_of_target? htarget
    obtain ⟨hlt, hheld, -⟩ := h.carries.next hcode hend hholds hnext
    exact ⟨hlt, hheld⟩
  heights :=
    { start := heightAt_size dict 0 [] _
      takes := fun pc i hholds ↦ (h.carries.fits hcode hend hundefined hholds).takes
      returns := fun pc hholds ↦ (h.carries.fits hcode hend hundefined hholds).returns rfl
      goesOn := fun pc i next hholds hnext ↦ (h.carries.next hcode hend hholds hnext).2 }
  nodes s hs := h.isIn hcode hend hs

end Whole

/-- The code of a function is well formed. -/
theorem Block.EmitsFunction.wellFormed {dict : Dictionary} {body : Block} {outer : List Shape}
    {name : String} {params : List String} {f : Function} {code : Code}
    (h : body.EmitsFunction dict outer name params f)
    (hundefined : dict.value Word.undefined = .ok .undefined) (hcode : f.code? = some code)
    (hshort : code.words.size < codeBound) :
    ∃ height, code.WellFormed dict ⟨name, .ofFunction params body :: outer⟩ body height := by
  obtain ⟨instrs, line, fragment, rfl, hemits, hf⟩ := h.code
  rw [hf] at hcode
  obtain rfl := Option.some.inj hcode
  have hwords := (fragment ++ Fragment.epilogue line).length_words
  have hlines := (fragment ++ Fragment.epilogue line).length_lines
  have hall := Code.Contains.all (fragment ++ Fragment.epilogue line) (params.length + 1)
    (Shape.ofFunction params (.mk instrs line)).size
  have hspans := hemits.spans ⟨Shape.lt_of_slot?, hundefined⟩
    (Nat.lt_of_le_of_lt hall.left.le_size hshort)
  exact ⟨_, hspans.wellFormed hall hwords.symm (hlines.trans hwords.symm)
    (Shape.arity_le_size params _) hundefined⟩

/-! ## Growing dictionaries -/

namespace Instruction.Names

variable {dict dict' : Dictionary} {slots : Nat} {i : Instruction}

theorem mono (h : i.Names dict slots) (hgrows : dict.GrowsTo dict') : i.Names dict' slots := by
  cases i with
  | const word => exact h.imp fun _ hdenotes ↦ hdenotes.mono hgrows
  | lookup word | register word | get word | put word =>
    exact h.imp fun _ hvalue ↦ hgrows.value hvalue
  | new word => exact h.imp fun _ hshape ↦ hgrows.shape hshape
  | _ => exact h

/-- A shape that is named keeps its size. -/
theorem taken_eq (h : i.Names dict slots) (hgrows : dict.GrowsTo dict') :
    i.taken dict' = i.taken dict := by
  cases i with
  | new word =>
    obtain ⟨shape, hshape⟩ := h
    rw [taken, taken, hshape, hgrows.shape hshape]
  | _ => rfl

end Instruction.Names

/-- Well-formed code stays well formed, with the same heights, as the dictionary grows. -/
theorem Code.WellFormed.mono {code : Code} {dict dict' : Dictionary} {site : Site} {body : Block}
    {height : Nat → Nat} (h : code.WellFormed dict site body height)
    (hgrows : dict.GrowsTo dict') : code.WellFormed dict' site body height :=
  { h with
    names := fun pc i hholds ↦ (h.names pc i hholds).mono hgrows
    heights :=
      { h.heights with
        takes := fun pc i hholds ↦ by
          rw [(h.names pc i hholds).taken_eq hgrows]
          exact h.heights.takes pc i hholds
        goesOn := fun pc i next hholds hnext ↦ by
          rw [Instruction.heightAfter, (h.names pc i hholds).taken_eq hgrows]
          exact h.heights.goesOn pc i next hholds hnext }
    nodes := fun s hs ↦
      { h.nodes s hs with
        emits := by
          obtain ⟨line, fragment, hemits, hcode⟩ := (h.nodes s hs).emits
          exact ⟨line, fragment, hemits.mono hgrows, hcode⟩ } }

/-! ## Function literals -/

/-- The nodes are code in the dictionary where they are function literals. -/
def Dictionary.Covers (dict : Dictionary) (nodes : List Expr) : Prop :=
  ∀ name params body line, Expr.function name params body line ∈ nodes →
    ∃ word f outer, dict.value word = .ok (.function f) ∧ f.name = name.getD Function.anonymous ∧
      body.EmitsFunction dict outer f.name params f

namespace Dictionary.Covers

variable {dict : Dictionary} {nodes others : List Expr}

theorem nil : dict.Covers [] :=
  fun _ _ _ _ h ↦ absurd h List.not_mem_nil

theorem append (h : dict.Covers nodes) (h' : dict.Covers others) : dict.Covers (nodes ++ others) :=
  fun name params body line hmem ↦ (List.mem_append.mp hmem).elim (h name params body line)
    (h' name params body line)

theorem other {e : Expr} (he : ∀ name params body line, e ≠ .function name params body line)
    (h : dict.Covers nodes) : dict.Covers (e :: nodes) := by
  intro name params body line hmem
  rcases List.mem_cons.mp hmem with heq | hmem
  · exact absurd heq.symm (he name params body line)
  · exact h name params body line hmem

theorem literal {name : Option String} {params : List String} {body : Block} {line : UInt32}
    {word : Word} {f : Function} {outer : List Shape} (hword : dict.value word = .ok (.function f))
    (hname : f.name = name.getD Function.anonymous)
    (hemits : body.EmitsFunction dict outer f.name params f) (h : dict.Covers nodes) :
    dict.Covers (.function name params body line :: nodes) := by
  intro name' params' body' line' hmem
  rcases List.mem_cons.mp hmem with heq | hmem
  · obtain ⟨rfl, rfl, rfl, rfl⟩ := Expr.function.inj heq
    exact ⟨word, f, outer, hword, hname, hemits⟩
  · exact h name' params' body' line' hmem

end Dictionary.Covers

theorem Block.EmitsFunction.name_eq {dict : Dictionary} {body : Block} {outer : List Shape}
    {name : String} {params : List String} {f : Function}
    (h : body.EmitsFunction dict outer name params f) : f.name = name := by
  cases h with
  | mk h => rfl

section Literals

variable {dict : Dictionary}

mutual

/-- Where a node has code, each function literal in it has a function in the dictionary. -/
theorem Expr.Emits.covers {site : Site} {start : Nat} {line : UInt32} {e : Expr}
    {code : Fragment} : e.Emits dict site start line code → dict.Covers e.nodes
  | .block h => .other nofun h.covers
  | .literal _ | .load _ | .lookup _ _ => .other nofun .nil
  | .assign _ _ h | .ret _ h | .field _ h _ => .other nofun h.covers
  | .lambda h hword => .literal hword h.name_eq (h.name_eq.symm ▸ h) h.covers
  | .named h hword _ => .literal hword h.name_eq (h.name_eq.symm ▸ h) h.covers
  | .call _ h hargs | .method _ h _ hargs => .other nofun (h.covers.append hargs.covers)
  | .cond _ h hTrue _ hFalse _ =>
    .other nofun ((h.covers.append hTrue.covers).append hFalse.covers)
  | .object h _ => .other nofun h.covers
  | .setField _ h _ h' _ => .other nofun (h.covers.append h'.covers)

theorem Block.Emits.covers {site : Site} {start : Nat} {line : UInt32} {body : Block}
    {code : Fragment} : body.Emits dict site start line code → dict.Covers body.nodes
  | .mk h => h.covers

theorem Block.EmitsFunction.covers {body : Block} {outer : List Shape} {name : String}
    {params : List String} {f : Function} :
    body.EmitsFunction dict outer name params f → dict.Covers body.nodes
  | .mk h => h.covers

theorem EmitsInstrs.covers {site : Site} {start : Nat} {line : UInt32} {es : List Expr}
    {code : Fragment} : EmitsInstrs dict site start line es code → dict.Covers (nodesOfList es)
  | .nil => .nil
  | .instruction _ h hrest | .value _ h hrest => h.covers.append hrest.covers

theorem EmitsArgs.covers {site : Site} {start : Nat} {line : UInt32} {es : List Expr}
    {code : Fragment} : EmitsArgs dict site start line es code → dict.Covers (nodesOfList es)
  | .nil => .nil
  | .cons _ h hrest => h.covers.append hrest.covers

theorem EmitsFields.covers {site : Site} {start : Nat} {line : UInt32}
    {fields : List (String × Expr)} {code : Fragment} :
    EmitsFields dict site start line fields code → dict.Covers (nodesOfFields fields)
  | .nil => .nil
  | .dropped _ _ h hrest | .kept _ _ h hrest => h.covers.append hrest.covers

end

end Literals

/-! ## Compiled functions -/

/-- A function whose code, unless it is too long for its jumps, is well formed in the dictionary and
in all that this one grows to, with heights that do not change. -/
def Function.HasWellFormedCode (f : Function) (dict : Dictionary) (params : List String)
    (body : Block) (outer : List Shape) : Prop :=
  ∃ code, f.code? = some code ∧ (code.words.size < codeBound → ∃ height, ∀ dict',
    dict.GrowsTo dict' →
      code.WellFormed dict' ⟨f.name, .ofFunction params body :: outer⟩ body height ∧
      ∀ pc found, code.Walks dict' pc found → found = height pc)

theorem Block.EmitsFunction.hasWellFormedCode {dict : Dictionary} {body : Block}
    {outer : List Shape} {params : List String} {f : Function}
    (h : body.EmitsFunction dict outer f.name params f)
    (hundefined : dict.value Word.undefined = .ok .undefined) :
    f.HasWellFormedCode dict params body outer := by
  obtain ⟨code, hcode⟩ := h.code?_isSome
  refine ⟨code, hcode, fun hshort ↦ ?_⟩
  obtain ⟨height, hwellFormed⟩ := h.wellFormed hundefined hcode hshort
  refine ⟨height, fun dict' hgrows ↦ ?_⟩
  have hgrown := hwellFormed.mono hgrows
  exact ⟨hgrown, fun _ _ ↦ hgrown.heights.eq_of_walks⟩

/-- The bytecode of every function that is compiled, and of every function literal in it, is well
formed. -/
theorem compiled_bytecode_wellFormed {name : Option String} {params : List String} {body : Block}
    {enclosing : List Shape} {pool pool' : Pool} {f : Function} (hnumbered : pool.Numbered)
    (hcompile : body.compileAs name params enclosing pool = .ok f pool') :
    f.name = name.getD Function.anonymous ∧ f.HasWellFormedCode pool'.dict params body enclosing ∧
      ∀ name' params' body' line, Expr.function name' params' body' line ∈ body.nodes →
        ∃ word g outer, pool'.dict.value word = .ok (.function g) ∧
          g.name = name'.getD Function.anonymous ∧
          g.HasWellFormedCode pool'.dict params' body' outer := by
  have hspec := Block.compileBody_spec enclosing (name.getD Function.anonymous) params body
    hnumbered
  have hbody : body.compileBody enclosing (name.getD Function.anonymous) params pool =
    .ok f pool' := hcompile
  unfold Ensures at hspec
  rw [hbody] at hspec
  obtain ⟨hbecomes, hfresh⟩ := hspec
  have hundefined : pool'.dict.value Word.undefined = .ok .undefined :=
    Dictionary.value_eq_ok.mpr ⟨0, rfl, hbecomes.numbered.undefined⟩
  have hemits := hfresh.emits
  have hname := hemits.name_eq
  refine ⟨hname, (hname.symm ▸ hemits).hasWellFormedCode hundefined, ?_⟩
  intro name' params' body' line hmem
  obtain ⟨word, g, outer, hword, hg, hinner⟩ := hemits.covers name' params' body' line hmem
  exact ⟨word, g, outer, hword, hg, hinner.hasWellFormedCode hundefined⟩

/-- An object whose first initializer is overridden, a branch with a return inside and code behind
the return, and a function literal with a branch of its own. -/
def pickedField : Block :=
  .ofList [
    .declare "made" (.objectOf [
      ("a", .applyGlobal "print" [.int 1]),
      ("pick", .lambda (some "inner") ["x"] [.branch (.read "x") [.returning (.read "x")] []]),
      ("a", .str "again")]),
    .branch (.read "n") [.returning (.get (.read "made") "a"), .read "n"]
      [.send (.read "made") "pick" [.read "n"]],
    .put (.read "made") "a" (.int (-1))]

/-- How many words the code of a function takes. -/
def compiledSize : EStateM.Result Failure Pool Function → Option Nat
  | .ok f _ => f.code?.map fun code ↦ code.words.size
  | .error _ _ => none

theorem pickedField_bytecode : ∃ (f g : Function) (pool : Pool) (code : Code) (word : Word)
    (outer : List Shape) (height : Nat → Nat),
    pickedField.compileAs (some "choose") ["n"] [] (RunState.new {}).toPool = .ok f pool ∧
      f.code? = some code ∧ code.words.size = 54 ∧
      code.WellFormed pool.dict ⟨"choose", .ofFunction ["n"] pickedField :: []⟩ pickedField height ∧
      pool.dict.value word = .ok (.function g) ∧ g.name = "inner" ∧
      g.HasWellFormedCode pool.dict ["x"]
        (.ofList [.branch (.read "x") [.returning (.read "x")] []]) outer := by
  have hsize : compiledSize (pickedField.compileAs (some "choose") ["n"] []
      (RunState.new {}).toPool) = some 54 := by
    decide +kernel
  cases hcompile : pickedField.compileAs (some "choose") ["n"] [] (RunState.new {}).toPool with
  | error failure pool =>
    rw [hcompile] at hsize
    cases hsize
  | ok f pool =>
    rw [hcompile] at hsize
    obtain ⟨hname, ⟨code, hcode, hheights⟩, hliterals⟩ :=
      compiled_bytecode_wellFormed (Pool.orderly_new none {}).numbered hcompile
    have hwords : code.words.size = 54 := by
      rw [compiledSize, hcode] at hsize
      exact Option.some.inj hsize
    obtain ⟨height, hwellFormed⟩ := hheights (by rw [hwords]; decide)
    obtain ⟨word, g, outer, hword, hg, hinner⟩ := hliterals (some "inner") ["x"] _ 0
      (List.mem_of_getElem? (i := 5) rfl)
    refine ⟨f, g, pool, code, word, outer, height, rfl, hcode, hwords, ?_, hword, hg, hinner⟩
    have hnow := (hwellFormed pool.dict (.refl _)).1
    rw [hname] at hnow
    exact hnow

end TandemScript
