import TandemScript.Proofs.Program
import TandemScript.Proofs.Stretches

/-!
# Heights of the stack

How many operands a function has on the stack is fixed by the position of its code: it is what the
instructions before the position leave, read from first to last. Jumps of emitted code only go
forward, to positions with the same number of operands, so that all ways from a position on form a
finite tree, whose leaves are returns with the result as the only operand.
-/

namespace TandemScript

/-! ## What instructions take and leave -/

/-- How many operands an instruction takes, and how many it leaves for the next instruction, where
its words name what they should. -/
inductive Instruction.Effect (dict : Dictionary) (slots : Nat) :
    Instruction → Nat → Nat → Prop
  | const {word : Word} {value : Value} : dict.Denotes word value →
    Effect dict slots (.const word) 0 1
  | lookup {word : Word} {name : String} : dict.value word = .ok (.str name) →
    Effect dict slots (.lookup word) 0 1
  | register {word : Word} {name : String} : dict.value word = .ok (.str name) →
    Effect dict slots (.register word) 1 0
  | load {slot : Nat} : slot < slots → Effect dict slots (.load (.ofNat slot)) 0 1
  | store {slot : Nat} : slot < slots → Effect dict slots (.store (.ofNat slot)) 1 0
  | dup : Effect dict slots .dup 1 2
  | pop : Effect dict slots .pop 1 0
  | swap : Effect dict slots .swap 2 2
  | call {argc : Nat} : Effect dict slots (.call (.ofNat argc)) (argc + 2) 1
  | new {word : Word} {shape : Shape} : dict.shape word = .ok shape →
    Effect dict slots (.new word) shape.size 1
  | get {word : Word} {name : String} : dict.value word = .ok (.str name) →
    Effect dict slots (.get word) 1 1
  | put {word : Word} {name : String} : dict.value word = .ok (.str name) →
    Effect dict slots (.put word) 2 0

namespace Instruction

theorem Effect.ne_ret {dict : Dictionary} {slots taken left : Nat} {i : Instruction}
    (h : i.Effect dict slots taken left) : i ≠ .ret := by
  rintro rfl
  cases h

/-- How many operands an instruction takes. -/
def taken (dict : Dictionary) : Instruction → Nat
  | const _ | lookup _ | load _ | goto _ => 0
  | register _ | store _ | dup | pop | get _ | jumpIfFalse _ | ret => 1
  | swap | put _ => 2
  | call argc => argc.toNat + 2
  | new word =>
    match dict.shape word with
    | .ok shape => shape.size
    | .error _ => 0

/-- How many operands an instruction leaves in place of those that it takes. -/
def left : Instruction → Nat
  | const _ | lookup _ | load _ | call _ | new _ | get _ => 1
  | dup | swap => 2
  | register _ | store _ | pop | put _ | goto _ | jumpIfFalse _ | ret => 0

def heightAfter (dict : Dictionary) (height : Nat) (i : Instruction) : Nat :=
  height - i.taken dict + i.left

/-- The position that an instruction jumps to. -/
def target? : Instruction → Option Nat
  | goto target | jumpIfFalse target => some target.toNat
  | _ => none

/-- The words of an instruction name what they should: constants, strings, shapes, and slots of the
function. -/
def Names (dict : Dictionary) (slots : Nat) : Instruction → Prop
  | const word => ∃ value, dict.Denotes word value
  | lookup word | register word | get word | put word =>
    ∃ name, dict.value word = .ok (.str name)
  | new word => ∃ shape, dict.shape word = .ok shape
  | load slot | store slot => slot.toNat < slots
  | _ => True

theorem Names.effect {dict : Dictionary} {slots : Nat} {i : Instruction} (h : i.Names dict slots)
    (hret : i ≠ .ret) (htarget : i.target? = none) :
    i.Effect dict slots (i.taken dict) i.left := by
  cases i with
  | const word => exact .const h.choose_spec
  | lookup word => exact .lookup h.choose_spec
  | register word => exact .register h.choose_spec
  | get word => exact .get h.choose_spec
  | put word => exact .put h.choose_spec
  | load slot => exact UInt32.ofNat_toNat (x := slot) ▸ .load h
  | store slot => exact UInt32.ofNat_toNat (x := slot) ▸ .store h
  | call argc =>
    have hcall : Effect dict slots (.call (.ofNat argc.toNat)) (argc.toNat + 2) 1 := .call
    rw [UInt32.ofNat_toNat] at hcall
    exact hcall
  | new word =>
    obtain ⟨shape, hshape⟩ := h
    have hnew : Effect dict slots (.new word) shape.size 1 := .new hshape
    simpa only [taken, left, hshape] using hnew
  | dup => exact .dup
  | pop => exact .pop
  | swap => exact .swap
  | ret => exact absurd rfl hret
  | goto _ | jumpIfFalse _ => cases htarget

/-- An instruction that may stand where the stack has so many operands. -/
structure Fits (dict : Dictionary) (slots height : Nat) (i : Instruction) : Prop where
  names : i.Names dict slots
  takes : i.taken dict ≤ height
  returns : i = .ret → height = 1

end Instruction

/-- The height behind a piece of code, read from first to last. -/
def Fragment.heightAfter (dict : Dictionary) (height : Nat) (fragment : Fragment) : Nat :=
  fragment.foldl (fun height (i, _) ↦ i.heightAfter dict height) height

theorem Fragment.heightAfter_append (dict : Dictionary) (height : Nat) (a b : Fragment) :
    heightAfter dict height (a ++ b) = heightAfter dict (heightAfter dict height a) b :=
  List.foldl_append

/-! ## Pieces of code -/

/-- If the instruction jumps, then over the first part of the code behind it, to a place with the
height that it leaves. -/
def Instruction.Lands (dict : Dictionary) (start height : Nat) (rest : Fragment)
    (i : Instruction) : Prop :=
  ∀ target, i.target? = some target → ∃ skipped others, rest = skipped ++ others ∧
    target = start + i.size + skipped.size ∧
    skipped.heightAfter dict (i.heightAfter dict height) = i.heightAfter dict height

theorem Instruction.Lands.of_target? {dict : Dictionary} {start height : Nat} {rest : Fragment}
    {i : Instruction} (h : i.target? = none) : i.Lands dict start height rest := by
  intro target htarget
  rw [h] at htarget
  cases htarget

theorem Instruction.Lands.append {dict : Dictionary} {start height : Nat} {rest : Fragment}
    {i : Instruction} (h : i.Lands dict start height rest) (more : Fragment) :
    i.Lands dict start height (rest ++ more) := by
  intro target htarget
  obtain ⟨skipped, others, rfl, hlands⟩ := h target htarget
  exact ⟨skipped, others ++ more, List.append_assoc .., hlands⟩

/-- The piece of code carries one height to another one. Each instruction fits at its height, and
jumps stay within the piece or go to its end. -/
inductive Fragment.Carries (dict : Dictionary) (slots : Nat) :
    Nat → Nat → Fragment → Nat → Prop
  | nil {start height : Nat} : Carries dict slots start height [] height
  | cons {start height after : Nat} {i : Instruction} {line : UInt32} {rest : Fragment} :
    i.Fits dict slots height → i.Lands dict start height rest →
    Carries dict slots (start + i.size) (i.heightAfter dict height) rest after →
    Carries dict slots start height ((i, line) :: rest) after

namespace Fragment.Carries

variable {dict : Dictionary} {slots start height mid after : Nat} {a b fragment : Fragment}

theorem heightAfter_eq (h : Carries dict slots start height fragment after) :
    fragment.heightAfter dict height = after := by
  induction h with
  | nil => rfl
  | cons _ _ _ ih => exact ih

theorem append (ha : Carries dict slots start height a mid)
    (hb : Carries dict slots (start + a.size) mid b after) :
    Carries dict slots start height (a ++ b) after := by
  induction ha with
  | nil => exact hb
  | @cons start _ _ i _ rest hfits hlands _ ih =>
    refine .cons hfits (hlands.append b) (ih ?_)
    rwa [Nat.add_assoc]

theorem right (h : Carries dict slots start height (a ++ b) after) :
    Carries dict slots (start + a.size) (a.heightAfter dict height) b after := by
  induction a generalizing start height with
  | nil => exact h
  | cons head rest ih =>
    cases h with
    | cons _ _ hrest =>
      have hb := ih hrest
      rwa [Nat.add_assoc] at hb

/-- A last instruction that does not jump. -/
theorem push {i : Instruction} {line : UInt32} (h : Carries dict slots start height a mid)
    (hfits : i.Fits dict slots mid) (hi : i.target? = none) :
    Carries dict slots start height (a ++ [(i, line)]) (i.heightAfter dict mid) :=
  h.append (.cons hfits (.of_target? hi) .nil)

end Fragment.Carries

/-! ## Positions of code -/

/-- From a position on, with so many operands, every way through the code comes to a return with
one operand, and finds on it the operands that its instructions take. -/
inductive Code.Flows (dict : Dictionary) (code : Code) : Nat → Nat → Prop
  | next {pc taken left : Nat} {i : Instruction} {line : UInt32} {rest : Fragment} (kept : Nat) :
    code.Contains pc ((i, line) :: rest) → i.Effect dict code.slots taken left →
    code.Flows dict (pc + i.size) (kept + left) → code.Flows dict pc (kept + taken)
  | goto {pc height target : Nat} {line : UInt32} {rest : Fragment} :
    code.Contains pc ((.goto (.ofNat target), line) :: rest) → target ≤ code.words.size →
    code.Flows dict target height → code.Flows dict pc height
  | branch {pc height target : Nat} {line : UInt32} {rest : Fragment} :
    code.Contains pc ((.jumpIfFalse (.ofNat target), line) :: rest) →
    target ≤ code.words.size → code.Flows dict (pc + 2) height →
    code.Flows dict target height → code.Flows dict pc (height + 1)
  | ret {pc : Nat} {line : UInt32} {rest : Fragment} :
    code.Contains pc ((.ret, line) :: rest) → code.Flows dict pc 1

/-- An instruction that neither jumps nor returns does to the operands what it does anywhere. -/
theorem Code.Flows.exists_effect {dict : Dictionary} {code : Code} {pc height : Nat}
    (h : code.Flows dict pc height) {i : Instruction}
    (hfetch : code.fetch? pc = some (.instruction i)) (htarget : i.target? = none)
    (hret : i ≠ .ret) :
    ∃ kept taken left line rest, height = kept + taken ∧ code.Contains pc ((i, line) :: rest) ∧
      i.Effect dict code.slots taken left := by
  cases h with
  | next kept hcode heffect =>
    obtain rfl := hcode.eq_of_fetch? hfetch
    exact ⟨kept, _, _, _, _, rfl, hcode, heffect⟩
  | goto hcode | branch hcode =>
    obtain rfl := hcode.eq_of_fetch? hfetch
    cases htarget
  | ret hcode => exact absurd (hcode.eq_of_fetch? hfetch).symm hret

/-- The slots of the variables of a site are those of the code. -/
def Code.HasSlotsOf (code : Code) (site : Site) : Prop :=
  ∀ name slot, site.slot? name = some slot → slot < code.slots

/-- What holds of the ways from the end of a piece of code on holds of those from its beginning
on. -/
theorem Fragment.Carries.flows {dict : Dictionary} {code : Code} {start height after : Nat}
    {fragment : Fragment} (h : Carries dict code.slots start height fragment after)
    (hcode : code.Contains start fragment)
    (hend : code.Flows dict (start + fragment.size) after) : code.Flows dict start height := by
  -- The induction is on the length, since a jump goes on from any later part of the code.
  induction hlength : fragment.length using Nat.strongRecOn generalizing start height fragment with
  | ind length ih =>
    cases h with
    | nil => exact hend
    | @cons _ _ _ i line rest hfits hlands hrest =>
      have hbehind : code.Contains (start + i.size) rest := Code.Contains.right (a := [_]) hcode
      have hend' : code.Flows dict (start + i.size + rest.size) after := by
        rw [Nat.add_assoc]
        exact hend
      have hnext : code.Flows dict (start + i.size) (i.heightAfter dict height) :=
        ih rest.length (hlength ▸ Nat.lt_succ_self _) hrest hbehind hend' rfl
      have hjump : ∀ target, i.target? = some target → target ≤ code.words.size ∧
          code.Flows dict target (i.heightAfter dict height) := by
        intro target htarget
        obtain ⟨skipped, others, rfl, rfl, hsame⟩ := hlands target htarget
        refine ⟨Nat.le_trans (Nat.le_add_right _ _) hbehind.right.le_size, ?_⟩
        have hlt : others.length < length := by
          rw [← hlength, List.length_cons, List.length_append]
          omega
        rw [Fragment.size_append, ← Nat.add_assoc] at hend'
        exact hsame ▸ ih others.length hlt hrest.right hbehind.right hend' rfl
      by_cases hret : i = .ret
      · subst hret
        exact hfits.returns rfl ▸ .ret hcode
      have hkept : height - i.taken dict + i.taken dict = height := Nat.sub_add_cancel hfits.takes
      cases htarget : i.target? with
      | none =>
        rw [← hkept]
        exact .next _ hcode (hfits.names.effect hret htarget) hnext
      | some target =>
        obtain ⟨hle, hflows⟩ := hjump target htarget
        cases i with
        | goto word =>
          obtain rfl := Option.some.inj htarget
          rw [← UInt32.ofNat_toNat (x := word)] at hcode
          exact .goto hcode hle hflows
        | jumpIfFalse word =>
          obtain rfl := Option.some.inj htarget
          rw [← UInt32.ofNat_toNat (x := word)] at hcode
          rw [← hkept]
          exact .branch hcode hle hnext hflows
        | _ => cases htarget

/-! ## Nodes -/

theorem toNat_ofNat_of_short {n : Nat} (h : n < codeBound) : (UInt32.ofNat n).toNat = n :=
  UInt32.toNat_ofNat_of_lt' (Nat.lt_trans h (by decide))

theorem Shape.size_ofKeys_dropped {key : String} {keys : List String}
    (h : keys.contains key = true) : (ofKeys (key :: keys)).size = (ofKeys keys).size := by
  unfold size ofKeys
  rw [lastOccurrences, if_pos h]

theorem Shape.size_ofKeys_kept {key : String} {keys : List String}
    (h : keys.contains key = false) : (ofKeys (key :: keys)).size = (ofKeys keys).size + 1 := by
  unfold size ofKeys
  rw [lastOccurrences, if_neg (by rw [h]; exact Bool.false_ne_true), List.length_cons]

/-- The code of a node stands behind a part of a piece of code. It adds the values of the node to
the operands, and a node of a block finds none. -/
structure Stretch.StandsBehind (s : Stretch) (dict : Dictionary) (site : Site) (start height : Nat)
    (before code : Fragment) : Prop where
  start_eq : s.start = start + before.size
  emits : ∃ line, s.node.Emits dict site s.start line code
  adds : code.heightAfter dict (before.heightAfter dict height) =
    before.heightAfter dict height + s.node.valueCount
  statement : s.isStatement = true → before.heightAfter dict height = 0

/-- A piece of code that carries one height to another one, with the stretches of some nodes. -/
structure Fragment.Spans (dict : Dictionary) (slots : Nat) (site : Site) (start height : Nat)
    (fragment : Fragment) (after : Nat) (stretches : List Stretch) : Prop where
  carries : Carries dict slots start height fragment after
  stands : ∀ s ∈ stretches, ∃ before code behind, fragment = before ++ code ++ behind ∧
    s.StandsBehind dict site start height before code

namespace Stretch.StandsBehind

variable {s : Stretch} {dict : Dictionary} {site : Site} {start height : Nat}
  {a before code : Fragment}

theorem prepend
    (h : s.StandsBehind dict site (start + a.size) (a.heightAfter dict height) before code) :
    s.StandsBehind dict site start height (a ++ before) code where
  start_eq := by rw [h.start_eq, Fragment.size_append, Nat.add_assoc]
  emits := h.emits
  adds := by rw [Fragment.heightAfter_append, h.adds]
  statement hs := by rw [Fragment.heightAfter_append, h.statement hs]

end Stretch.StandsBehind

namespace Fragment.Spans

variable {dict : Dictionary} {slots : Nat} {site : Site} {start height mid after : Nat}
  {a b : Fragment} {i : Instruction} {l : UInt32} {inner others : List Stretch}

theorem of_carries (h : Carries dict slots start height a after) :
    Spans dict slots site start height a after [] :=
  ⟨h, fun _ hs ↦ absurd hs List.not_mem_nil⟩

theorem append (ha : Spans dict slots site start height a mid inner) {start' : Nat}
    (hstart : start + a.size = start') (hb : Spans dict slots site start' mid b after others) :
    Spans dict slots site start height (a ++ b) after (inner ++ others) where
  carries := ha.carries.append (hstart ▸ hb.carries)
  stands s hs := by
    rcases List.mem_append.mp hs with hs | hs
    · obtain ⟨before, code, behind, rfl, hstands⟩ := ha.stands s hs
      exact ⟨before, code, behind ++ b, List.append_assoc .., hstands⟩
    · obtain ⟨before, code, behind, rfl, hstands⟩ := hb.stands s hs
      rw [← hstart, ← ha.carries.heightAfter_eq] at hstands
      exact ⟨a ++ before, code, behind, by simp only [List.append_assoc], hstands.prepend⟩

/-- A last instruction that does not jump. -/
theorem push (h : Spans dict slots site start height a mid inner)
    (hfits : i.Fits dict slots mid) (hi : i.target? = none)
    (hafter : i.heightAfter dict mid = after) :
    Spans dict slots site start height (a ++ [(i, l)]) after inner where
  carries := hafter ▸ h.carries.push hfits hi
  stands s hs := by
    obtain ⟨before, code, behind, rfl, hstands⟩ := h.stands s hs
    exact ⟨before, code, behind ++ [(i, l)], List.append_assoc .., hstands⟩

/-- An instruction alone. -/
theorem single (hfits : i.Fits dict slots height) (hi : i.target? = none)
    (hafter : i.heightAfter dict height = after) :
    Spans dict slots site start height [(i, l)] after [] :=
  push (a := []) (of_carries .nil) hfits hi hafter

/-- A jump over the first part of a piece of code. -/
theorem jump {target : Nat} {skipped behind : Fragment} (hfits : i.Fits dict slots height)
    (hi : i.target? = some (UInt32.ofNat target).toNat) (hshort : target < codeBound)
    (htarget : target = start + i.size + skipped.size)
    (hsame : skipped.heightAfter dict (i.heightAfter dict height) = i.heightAfter dict height)
    (h : Spans dict slots site (start + i.size) (i.heightAfter dict height) (skipped ++ behind)
      after inner) :
    Spans dict slots site start height ((i, l) :: (skipped ++ behind)) after inner where
  carries := by
    refine .cons hfits (fun found hfound ↦ ?_) h.carries
    rw [toNat_ofNat_of_short hshort, htarget] at hi
    obtain rfl := Option.some.inj (hi.symm.trans hfound)
    exact ⟨skipped, behind, rfl, rfl, hsame⟩
  stands s hs := by
    obtain ⟨before, code, more, hcode, hstands⟩ := h.stands s hs
    exact ⟨(i, l) :: before, code, more, congrArg ((i, l) :: ·) hcode,
      Stretch.StandsBehind.prepend (a := [_]) hstands⟩

/-- A choice between two pieces of code, by a jump to the second one and a jump over it. -/
theorem branch {decision whenTrue whenFalse : Fragment} {tests trues falses : List Stretch}
    {atTrue atFalse stop : Nat} (hatTrue : start + decision.size + 2 = atTrue)
    (hatFalse : atTrue + whenTrue.size + 2 = atFalse) (hstop : atFalse + whenFalse.size = stop)
    (hshort : stop < codeBound) (hdecision : Spans dict slots site start 0 decision 1 tests)
    (hTrue : Spans dict slots site atTrue 0 whenTrue 0 trues)
    (hFalse : Spans dict slots site atFalse 0 whenFalse 0 falses) :
    Spans dict slots site start 0
      (decision ++ [(.jumpIfFalse (.ofNat atFalse), l)] ++ whenTrue ++
        [(.goto (.ofNat stop), l)] ++ whenFalse) 0 (tests ++ trues ++ falses) := by
  have hover : Spans dict slots site (atTrue + whenTrue.size) 0
      ((.goto (.ofNat stop), l) :: (whenFalse ++ [])) 0 falses := by
    have hposition : stop = atTrue + whenTrue.size + 2 + whenFalse.size := by omega
    refine .jump ⟨trivial, Nat.zero_le _, nofun⟩ rfl hshort hposition
      hFalse.carries.heightAfter_eq ?_
    rw [List.append_nil]
    exact hatFalse ▸ hFalse
  have hchoice := hTrue.append rfl hover
  rw [List.append_nil, List.append_cons] at hchoice
  have hposition : atFalse = start + decision.size + 2 +
      Fragment.size (whenTrue ++ [(.goto (.ofNat stop), l)]) := by
    rw [hatTrue, size_append, ← Nat.add_assoc]
    exact hatFalse.symm
  have hsame : heightAfter dict 0 (whenTrue ++ [(.goto (.ofNat stop), l)]) = 0 := by
    rw [heightAfter_append, hTrue.carries.heightAfter_eq]
    rfl
  have hjump : Spans dict slots site (start + decision.size) 1
      ((.jumpIfFalse (.ofNat atFalse), l) ::
        (whenTrue ++ [(.goto (.ofNat stop), l)] ++ whenFalse)) 0 (trues ++ falses) := by
    refine .jump ⟨trivial, Nat.le_refl 1, nofun⟩ rfl (by omega) hposition hsame ?_
    rw [← hatTrue] at hchoice
    exact hchoice
  simpa only [List.append_assoc, List.cons_append, List.nil_append] using
    hdecision.append rfl hjump

/-- A last call of a function that lies below its receiver and the arguments. -/
theorem call {argc : Nat} (h : Spans dict slots site start height a (after + 2 + argc) inner)
    (hargc : argc < codeBound) :
    Spans dict slots site start height (a ++ [(.call (.ofNat argc), l)]) (after + 1) inner := by
  have htaken : (Instruction.call (.ofNat argc)).taken dict = argc + 2 :=
    congrArg (· + 2) (toNat_ofNat_of_short hargc)
  refine h.push ⟨trivial, ?_, nofun⟩ rfl ?_
  · rw [htaken]
    omega
  · rw [Instruction.heightAfter, htaken, Nat.add_assoc, Nat.add_comm 2 argc, Nat.add_sub_cancel]
    rfl

/-- A method is put below the receiver from which it is read. -/
theorem method {word : Word} {name : String}
    (h : Spans dict slots site start height a (height + 1) inner)
    (hname : dict.value word = .ok (.str name)) :
    Spans dict slots site start height (a ++ [(.dup, l), (.get word, l), (.swap, l)]) (height + 2)
      inner := by
  have hdup := h.push (l := l) (i := .dup) ⟨trivial, Nat.le_add_left _ _, nofun⟩ rfl rfl
  have hget := hdup.push (l := l) (i := .get word) ⟨⟨_, hname⟩, Nat.le_add_left _ _, nofun⟩ rfl rfl
  have hswap := hget.push (l := l) (i := .swap) ⟨trivial, Nat.le_add_left _ _, nofun⟩ rfl rfl
  simp only [List.append_assoc, List.cons_append, List.nil_append] at hswap
  exact hswap

theorem value {e : Expr} (h : Spans dict slots site start height a (height + e.valueCount) inner)
    (he : e.isInstruction = false) : Spans dict slots site start height a (height + 1) inner := by
  rwa [Expr.valueCount_of_value he] at h

/-- The node whose code the piece is. -/
theorem node {e : Expr} {isStatement : Bool}
    (h : Spans dict slots site start height a (height + e.valueCount) inner)
    (hemits : e.Emits dict site start l a) (hstatement : isStatement = true → height = 0) :
    Spans dict slots site start height a (height + e.valueCount)
      (⟨e, start, isStatement⟩ :: inner) where
  carries := h.carries
  stands s hs := by
    rcases List.mem_cons.mp hs with rfl | hs
    · exact ⟨[], a, [], (List.append_nil a).symm, rfl, ⟨l, hemits⟩, h.carries.heightAfter_eq,
        hstatement⟩
    · exact h.stands s hs

end Fragment.Spans

/-- There are slots for the variables of a site, and the dictionary has the undefined value. -/
structure Site.Suits (site : Site) (dict : Dictionary) (slots : Nat) : Prop where
  slots {name : String} {slot : Nat} : site.slot? name = some slot → slot < slots
  undefined : dict.value Word.undefined = .ok .undefined

theorem Site.Suits.toNat_lt {site : Site} {dict : Dictionary} {slots : Nat}
    (h : site.Suits dict slots) {name : String} {slot : Nat} (hslot : site.slot? name = some slot) :
    (UInt32.ofNat slot).toNat < slots :=
  Nat.lt_of_le_of_lt (Nat.mod_le _ _) (h.slots hslot)

section Nodes

variable {dict : Dictionary} {slots : Nat}

open Fragment (Spans)

-- The recursion is on the derivations. Their site is an index, not a parameter: it is taken apart,
-- since arguments that are handed on as they are count as parameters.
mutual

/-- A node adds its value to the operands, if it has one. A node without a value is only found where
there are no operands. -/
theorem Expr.Emits.spans {e : Expr} {site : Site} {start : Nat} {line : UInt32} {code : Fragment}
    (hemits : e.Emits dict site start line code) (height : Nat) (isStatement : Bool)
    (hsite : site.Suits dict slots) (hshort : start + code.size < codeBound)
    (hheight : e.isInstruction = false ∧ isStatement = false ∨ height = 0) :
    Spans dict slots site start height code (height + e.valueCount)
      (e.stretches isStatement start) := by
  have hnode := hemits
  have hstatement : isStatement = true → height = 0 := fun hs ↦
    hheight.resolve_left fun h ↦ absurd hs (by simp [h.2])
  obtain ⟨function, scopes⟩ := site
  cases hemits with
  | literal hdenotes =>
    refine .node ?_ hnode hstatement
    exact .single ⟨⟨_, hdenotes⟩, Nat.zero_le _, nofun⟩ rfl rfl
  | load hslot =>
    refine .node ?_ hnode hstatement
    exact .single ⟨hsite.toNat_lt hslot, Nat.zero_le _, nofun⟩ rfl rfl
  | lookup _ hname =>
    refine .node ?_ hnode hstatement
    exact .single ⟨⟨_, hname⟩, Nat.zero_le _, nofun⟩ rfl rfl
  | lambda _ hword =>
    refine .node ?_ hnode hstatement
    exact .single ⟨⟨_, .entry hword (by simp)⟩, Nat.zero_le _, nofun⟩ rfl rfl
  | named _ hword hname =>
    refine .node ?_ hnode hstatement
    have hconst : Spans dict slots ⟨function, scopes⟩ start height [(.const _, line)]
        (height + 1) [] :=
      .single ⟨⟨_, .entry hword (by simp)⟩, Nat.zero_le _, nofun⟩ rfl rfl
    have hdup := hconst.push (l := line) (i := .dup)
      ⟨trivial, Nat.le_add_left _ _, nofun⟩ rfl rfl
    exact hdup.push ⟨⟨_, hname⟩, Nat.le_add_left _ _, nofun⟩ rfl rfl
  | @call _ _ _ _ args _ target operands hcallee htarget hargs =>
    refine .node ?_ hnode hstatement
    simp only [Fragment.size_append] at hshort
    change start + (target.size + 2 + operands.size + 2) < codeBound at hshort
    have hargc := hargs.length_le
    have hreceiver := ((htarget.spans height false hsite (by omega)
      (.inl ⟨hcallee, rfl⟩)).value hcallee).push (l := line) (i := .const Word.undefined)
      ⟨⟨_, .entry hsite.undefined (by simp)⟩, Nat.zero_le _, nofun⟩ rfl rfl
    have hoperands := hargs.spans (height + 2) hsite (by omega)
    rw [htarget.size_eq] at hoperands
    refine (hreceiver.append ?_ hoperands).call (by omega)
    rw [Fragment.size_append, htarget.size_eq]
    rfl
  | object hfields hshape =>
    refine .node ?_ hnode hstatement
    simp only [Fragment.size_append] at hshort
    refine (hfields.spans height hsite (by omega)).push ⟨⟨_, hshape⟩, ?_, nofun⟩ rfl ?_
    · rw [Instruction.taken, hshape]
      exact Nat.le_add_left _ _
    · rw [Instruction.heightAfter, Instruction.taken, hshape]
      exact congrArg (· + 1) (Nat.add_sub_cancel ..)
  | field hreceiver htarget hname =>
    refine .node ?_ hnode hstatement
    simp only [Fragment.size_append] at hshort
    exact ((htarget.spans height false hsite (by omega) (.inl ⟨hreceiver, rfl⟩)).value
      hreceiver).push ⟨⟨_, hname⟩, Nat.le_add_left _ _, nofun⟩ rfl rfl
  | @method _ _ _ _ _ args _ target operands word hreceiver htarget hname hargs =>
    refine .node ?_ hnode hstatement
    simp only [Fragment.size_append] at hshort
    change start + (target.size + 4 + operands.size + 2) < codeBound at hshort
    have hargc := hargs.length_le
    have hmethod := ((htarget.spans height false hsite (by omega)
      (.inl ⟨hreceiver, rfl⟩)).value hreceiver).method (l := line) hname
    have hoperands := hargs.spans (height + 2) hsite (by omega)
    rw [htarget.size_eq] at hoperands
    refine (hmethod.append ?_ hoperands).call (by omega)
    rw [Fragment.size_append, htarget.size_eq]
    rfl
  | block hbody =>
    obtain rfl : height = 0 := hheight.resolve_left nofun
    exact (hbody.spans hsite hshort).node hnode hstatement
  | assign hslot hvalue hemits =>
    obtain rfl : height = 0 := hheight.resolve_left nofun
    refine .node ?_ hnode hstatement
    simp only [Fragment.size_append] at hshort
    exact ((hemits.spans 0 false hsite (by omega) (.inl ⟨hvalue, rfl⟩)).value
      hvalue).push ⟨hsite.toNat_lt hslot, Nat.le_add_left _ _, nofun⟩ rfl rfl
  | ret hvalue hemits =>
    obtain rfl : height = 0 := hheight.resolve_left nofun
    refine .node ?_ hnode hstatement
    simp only [Fragment.size_append] at hshort
    exact ((hemits.spans 0 false hsite (by omega) (.inl ⟨hvalue, rfl⟩)).value
      hvalue).push ⟨trivial, Nat.le_refl _, fun _ ↦ rfl⟩ rfl rfl
  | @setField _ _ _ _ _ _ _ target code _ hreceiver htarget hvalue hemits hname =>
    obtain rfl : height = 0 := hheight.resolve_left nofun
    refine .node ?_ hnode hstatement
    simp only [Fragment.size_append] at hshort
    have hfirst := (htarget.spans 0 false hsite (by omega) (.inl ⟨hreceiver, rfl⟩)).value hreceiver
    have hsecond := (hemits.spans 1 false hsite (by omega) (.inl ⟨hvalue, rfl⟩)).value hvalue
    rw [htarget.size_eq] at hsecond
    exact (hfirst.append (congrArg (start + ·) htarget.size_eq) hsecond).push
      ⟨⟨_, hname⟩, Nat.le_refl _, nofun⟩ rfl rfl
  | @cond _ _ _ _ _ _ _ decision whenTrue whenFalse _ _ htest hdecision hTrue hatFalse hFalse
      hafter =>
    obtain rfl : height = 0 := hheight.resolve_left nofun
    refine .node ?_ hnode hstatement
    have htestSize := hdecision.size_eq
    have htrueSize := hTrue.size_eq
    simp only [Fragment.size_append] at hshort
    change start + (decision.size + 2 + whenTrue.size + 2 + whenFalse.size) < codeBound at hshort
    -- Jumps name positions by the sizes of code, and stretches by those known from the tree.
    rw [htestSize, htrueSize] at hatFalse
    subst hatFalse hafter
    have htest' := (hdecision.spans 0 false hsite (by omega) (.inl ⟨htest, rfl⟩)).value htest
    have hTrue' := hTrue.spans hsite (by omega)
    have hFalse' := hFalse.spans hsite (by omega)
    rw [htestSize] at hTrue'
    exact htest'.branch (congrArg (start + · + 2) htestSize) (congrArg (_ + · + 2) htrueSize) rfl
      (by omega) hTrue' hFalse'

/-- A block is found where there are no operands, and leaves none. -/
theorem Block.Emits.spans {body : Block} {site : Site} {start : Nat} {line : UInt32}
    {code : Fragment} (hemits : body.Emits dict site start line code)
    (hsite : site.Suits dict slots)
    (hshort : start + code.size < codeBound) :
    Spans dict slots site start 0 code 0 (body.stretches start) := by
  obtain ⟨function, scopes⟩ := site
  cases hemits with
  | mk hinstrs => exact hinstrs.spans hsite hshort

/-- Nodes of a block are found where there are no operands, and leave none. -/
theorem EmitsInstrs.spans {es : List Expr} {site : Site} {start : Nat} {line : UInt32}
    {code : Fragment} (hemits : EmitsInstrs dict site start line es code)
    (hsite : site.Suits dict slots)
    (hshort : start + code.size < codeBound) :
    Spans dict slots site start 0 code 0 (stretchesOfInstrs start es) := by
  obtain ⟨function, scopes⟩ := site
  cases hemits with
  | nil => exact .of_carries .nil
  | instruction he hemits hrest =>
    simp only [Fragment.size_append] at hshort
    have hnode := hemits.spans 0 true hsite (by omega) (.inr rfl)
    have hothers := hrest.spans hsite (by omega)
    rw [hemits.size_eq] at hothers
    rw [Expr.valueCount_of_instruction he] at hnode
    rw [stretchesOfInstrs, Expr.valueCount_of_instruction he]
    exact hnode.append (congrArg (start + ·) hemits.size_eq) hothers
  | @value _ _ _ _ _ code others he hemits hrest =>
    simp only [Fragment.size_append] at hshort
    change start + (code.size + 1 + others.size) < codeBound at hshort
    have hnode := hemits.spans 0 true hsite (by omega) (.inr rfl)
    have hpop := (hnode.value he).push (l := line) (i := .pop)
      ⟨trivial, Nat.le_refl 1, nofun⟩ rfl rfl
    have hothers := hrest.spans hsite (by omega)
    rw [hemits.size_eq] at hothers
    rw [stretchesOfInstrs, Expr.valueCount_of_value he]
    refine hpop.append ?_ hothers
    rw [Fragment.size_append, hemits.size_eq]
    rfl

/-- Arguments add a value each. -/
theorem EmitsArgs.spans {es : List Expr} {site : Site} {start : Nat} {line : UInt32}
    {code : Fragment} (hemits : EmitsArgs dict site start line es code) (height : Nat)
    (hsite : site.Suits dict slots)
    (hshort : start + code.size < codeBound) :
    Spans dict slots site start height code (height + es.length) (stretchesOfArgs start es) := by
  obtain ⟨function, scopes⟩ := site
  cases hemits with
  | nil => exact .of_carries .nil
  | @cons _ _ _ e rest _ _ he hemits hrest =>
    simp only [Fragment.size_append] at hshort
    have hfirst := (hemits.spans height false hsite (by omega) (.inl ⟨he, rfl⟩)).value he
    have hothers := hrest.spans (height + 1) hsite (by omega)
    rw [hemits.size_eq, Nat.add_assoc height, Nat.add_comm 1] at hothers
    exact hfirst.append (congrArg (start + ·) hemits.size_eq) hothers

/-- Initializers add a value for each name of the object. -/
theorem EmitsFields.spans {fields : List (String × Expr)} {site : Site} {start : Nat}
    {line : UInt32} {code : Fragment} (hemits : EmitsFields dict site start line fields code)
    (height : Nat)
    (hsite : site.Suits dict slots)
    (hshort : start + code.size < codeBound) :
    Spans dict slots site start height code
      (height + (Shape.ofKeys (fields.map Prod.fst)).size) (stretchesOfFields start fields) := by
  obtain ⟨function, scopes⟩ := site
  cases hemits with
  | nil => exact .of_carries .nil
  | @dropped _ _ _ _ _ _ code others hkey he hemits hrest =>
    simp only [Fragment.size_append] at hshort
    change start + (code.size + 1 + others.size) < codeBound at hshort
    have hfirst := (hemits.spans height false hsite (by omega) (.inl ⟨he, rfl⟩)).value he
    have hpop := hfirst.push (l := line) (i := .pop)
      ⟨trivial, Nat.le_add_left _ _, nofun⟩ rfl rfl
    have hothers := hrest.spans height hsite (by omega)
    rw [hemits.size_eq] at hothers
    rw [List.map_cons, Shape.size_ofKeys_dropped hkey, stretchesOfFields, if_pos hkey]
    refine hpop.append ?_ hothers
    rw [Fragment.size_append, hemits.size_eq]
    rfl
  | kept hkey he hemits hrest =>
    simp only [Fragment.size_append] at hshort
    have hfirst := (hemits.spans height false hsite (by omega) (.inl ⟨he, rfl⟩)).value he
    have hothers := hrest.spans (height + 1) hsite (by omega)
    rw [hemits.size_eq, Nat.add_assoc height, Nat.add_comm 1] at hothers
    rw [List.map_cons, Shape.size_ofKeys_kept hkey, stretchesOfFields,
      if_neg (hkey ▸ Bool.false_ne_true)]
    exact hfirst.append (congrArg (start + ·) hemits.size_eq) hothers

end

end Nodes

/-- A compiled function starts without operands. -/
theorem Program.Defines.flows {p : Program} {f : Function} {code : Code} (h : p.Defines f)
    (hcode : f.code? = some code) : code.Flows p.pool.dict 0 0 := by
  obtain ⟨outer, params, instrs, line, fragment, hemitted⟩ := h.emitted hcode
  have hepilogue := hemitted.contains.right
  have hlast : code.Flows p.pool.dict (0 + fragment.size) 0 :=
    .next 0 hepilogue (.const (.entry p.undefined (by simp)))
      (.ret (Code.Contains.right (a := [_]) hepilogue))
  have hshort : 0 + fragment.size < codeBound :=
    Nat.lt_of_le_of_lt hemitted.contains.left.le_size (h.isShort code hcode)
  have hspans := hemitted.emits.spans ⟨hemitted.slot_lt, p.undefined⟩ hshort
  exact hspans.carries.flows hemitted.contains.left hlast

end TandemScript
