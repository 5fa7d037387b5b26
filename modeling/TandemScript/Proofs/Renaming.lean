import Mathlib.Data.List.Forall2
import Mathlib.Logic.Relation
import TandemScript.Proofs.Placement
import TandemScript.Proofs.Resemblance

/-!
# Renamings

Two runs of one program may keep the same constants at different places of their dictionaries, and
create functions, shapes and records under different numbers. What words, code, values and objects
of the two runs have in common is said relative to a renaming of these places and numbers.
-/

namespace TandemScript

/-- Which places and numbers of two runs belong together. -/
structure Renaming where
  /-- Entries of the dictionaries. -/
  entry : Nat → Nat → Prop
  /-- Functions and shapes. -/
  id : Nat → Nat → Prop
  record : RecordId → RecordId → Prop
  heap : Nat → Nat → Prop

namespace Renaming

/-- Whatever belongs together in the first renaming does so in the second one. -/
structure Extends (ρ ρ' : Renaming) : Prop where
  entry : ∀ i j, ρ.entry i j → ρ'.entry i j
  id : ∀ i j, ρ.id i j → ρ'.id i j
  record : ∀ i j, ρ.record i j → ρ'.record i j
  heap : ∀ i j, ρ.heap i j → ρ'.heap i j

/-- Nothing belongs together with two things. -/
structure IsOneToOne (ρ : Renaming) : Prop where
  entry : Relator.BiUnique ρ.entry
  id : Relator.BiUnique ρ.id
  record : Relator.BiUnique ρ.record
  heap : Relator.BiUnique ρ.heap

/-- What belongs together with the same thing of a third run. -/
def join (ρ₁ ρ₂ : Renaming) : Renaming where
  entry := Relation.Comp (flip ρ₁.entry) ρ₂.entry
  id := Relation.Comp (flip ρ₁.id) ρ₂.id
  record := Relation.Comp (flip ρ₁.record) ρ₂.record
  heap := Relation.Comp (flip ρ₁.heap) ρ₂.heap

variable {ρ ρ' ρ'' ρ₁ ρ₂ : Renaming}

theorem Extends.refl (ρ : Renaming) : ρ.Extends ρ :=
  ⟨fun _ _ h ↦ h, fun _ _ h ↦ h, fun _ _ h ↦ h, fun _ _ h ↦ h⟩

theorem Extends.trans (h : ρ.Extends ρ') (h' : ρ'.Extends ρ'') : ρ.Extends ρ'' where
  entry i j hij := h'.entry i j (h.entry i j hij)
  id i j hij := h'.id i j (h.id i j hij)
  record i j hij := h'.record i j (h.record i j hij)
  heap i j hij := h'.heap i j (h.heap i j hij)

theorem biUnique_join {α β γ : Type} {R : α → β → Prop} {S : α → γ → Prop}
    (hR : Relator.BiUnique R) (hS : Relator.BiUnique S) :
    Relator.BiUnique (Relation.Comp (flip R) S) := by
  constructor
  · rintro b b' c ⟨a, hab, hac⟩ ⟨a', hab', hac'⟩
    obtain rfl := hS.1 hac hac'
    exact hR.2 hab hab'
  · rintro b c c' ⟨a, hab, hac⟩ ⟨a', hab', hac'⟩
    obtain rfl := hR.1 hab hab'
    exact hS.2 hac hac'

theorem IsOneToOne.join (h₁ : ρ₁.IsOneToOne) (h₂ : ρ₂.IsOneToOne) : (ρ₁.join ρ₂).IsOneToOne where
  entry := biUnique_join h₁.entry h₂.entry
  id := biUnique_join h₁.id h₂.id
  record := biUnique_join h₁.record h₂.record
  heap := biUnique_join h₁.heap h₂.heap

end Renaming

/-! ## Options and arrays -/

section Containers

variable {α β γ : Type} {R S : α → β → Prop}

theorem Option.Rel.mono {a : Option α} {b : Option β} (h : Option.Rel R a b)
    (hR : ∀ a b, R a b → S a b) : Option.Rel S a b := by
  cases h with
  | some h => exact .some (hR _ _ h)
  | none => exact .none

theorem Option.Rel.join {R : α → β → Prop} {S : α → γ → Prop} {T : β → γ → Prop}
    {a : Option α} {b : Option β} {c : Option γ} (hb : Option.Rel R a b) (hc : Option.Rel S a c)
    (hT : ∀ a b c, R a b → S a c → T b c) : Option.Rel T b c := by
  cases hb with
  | some hb =>
    cases hc with
    | some hc => exact .some (hT _ _ _ hb hc)
  | none =>
    cases hc with
    | none => exact .none

theorem Option.Rel.bind {α' β' : Type} {Q : α' → β' → Prop} {a : Option α} {b : Option β}
    {f : α → Option α'} {g : β → Option β'} (h : Option.Rel R a b)
    (hf : ∀ a b, R a b → Option.Rel Q (f a) (g b)) : Option.Rel Q (a >>= f) (b >>= g) := by
  cases h with
  | some h => exact hf _ _ h
  | none => exact .none

theorem Option.Rel.getD {a : Option α} {b : Option β} (h : Option.Rel R a b) {a' : α} {b' : β}
    (h' : R a' b') : R (a.getD a') (b.getD b') := by
  cases h with
  | some h => exact h
  | none => exact h'

/-- What stands at the same place of two arrays is related. -/
def Array.Corresponds (R : α → β → Prop) (xs : Array α) (ys : Array β) : Prop :=
  ∀ i : Nat, Option.Rel R xs[i]? ys[i]?

namespace Array.Corresponds

variable {xs xs' : Array α} {ys ys' : Array β}

theorem size_eq (h : Array.Corresponds R xs ys) : xs.size = ys.size := by
  have hx := h xs.size
  have hy := h ys.size
  rw [Array.getElem?_eq_none (Nat.le_refl _)] at hx hy
  generalize hys : ys[xs.size]? = b at hx
  generalize hxs : xs[ys.size]? = a at hy
  cases hx
  cases hy
  have hle := Array.getElem?_eq_none_iff.mp hys
  have hge := Array.getElem?_eq_none_iff.mp hxs
  omega

theorem mono (h : Array.Corresponds R xs ys) (hR : ∀ a b, R a b → S a b) :
    Array.Corresponds S xs ys :=
  fun i ↦ Option.Rel.mono (h i) hR

theorem join {R : α → β → Prop} {S : α → γ → Prop} {T : β → γ → Prop} {zs : Array γ}
    (hy : Array.Corresponds R xs ys) (hz : Array.Corresponds S xs zs)
    (hT : ∀ a b c, R a b → S a c → T b c) : Array.Corresponds T ys zs :=
  fun i ↦ Option.Rel.join (hy i) (hz i) hT

theorem empty : Array.Corresponds R #[] #[] :=
  fun _ ↦ .none

theorem push (h : Array.Corresponds R xs ys) {a : α} {b : β} (hab : R a b) :
    Array.Corresponds R (xs.push a) (ys.push b) := by
  intro i
  rw [Array.getElem?_push, Array.getElem?_push, h.size_eq]
  split
  · exact .some hab
  · exact h i

theorem pop (h : Array.Corresponds R xs ys) : Array.Corresponds R xs.pop ys.pop := by
  intro i
  rw [Array.getElem?_pop, Array.getElem?_pop, h.size_eq]
  split
  · exact h i
  · exact .none

theorem back? (h : Array.Corresponds R xs ys) : Option.Rel R xs.back? ys.back? := by
  rw [Array.back?_eq_getElem?, Array.back?_eq_getElem?, h.size_eq]
  exact h _

theorem append (h : Array.Corresponds R xs ys) (h' : Array.Corresponds R xs' ys') :
    Array.Corresponds R (xs ++ xs') (ys ++ ys') := by
  intro i
  rw [Array.getElem?_append, Array.getElem?_append, h.size_eq]
  split
  · exact h i
  · exact h' _

theorem replicate {a : α} {b : β} (hab : R a b) (count : Nat) :
    Array.Corresponds R (Array.replicate count a) (Array.replicate count b) := by
  intro i
  rw [Array.getElem?_replicate, Array.getElem?_replicate]
  split
  · exact .some hab
  · exact .none

theorem extract (h : Array.Corresponds R xs ys) (start stop : Nat) :
    Array.Corresponds R (xs.extract start stop) (ys.extract start stop) := by
  intro i
  rw [Array.getElem?_extract, Array.getElem?_extract, h.size_eq]
  split
  · exact h _
  · exact .none

theorem shrink (h : Array.Corresponds R xs ys) (count : Nat) :
    Array.Corresponds R (xs.shrink count) (ys.shrink count) := by
  rw [Array.shrink_eq_take, Array.shrink_eq_take]
  exact h.extract 0 count

theorem set (h : Array.Corresponds R xs ys) (index : Nat) {a : α} {b : β} (hab : R a b) :
    Array.Corresponds R (xs.setIfInBounds index a) (ys.setIfInBounds index b) := by
  intro i
  rw [Array.getElem?_setIfInBounds, Array.getElem?_setIfInBounds, h.size_eq]
  split
  · split
    · exact .some hab
    · exact .none
  · exact h i

theorem getD (h : Array.Corresponds R xs ys) (index : Nat) {a : α} {b : β} (hab : R a b) :
    R (xs.getD index a) (ys.getD index b) := by
  rw [Array.getD_eq_getD_getElem?, Array.getD_eq_getD_getElem?]
  exact Option.Rel.getD (h index) hab

/-- Arrays with the same elements as two lists. -/
theorem of_lists {as : List α} {bs : List β} (h : List.Forall₂ R as bs) :
    Array.Corresponds R as.toArray bs.toArray := by
  intro i
  rw [List.getElem?_toArray, List.getElem?_toArray]
  induction h generalizing i with
  | nil => exact .none
  | cons hab _ ih =>
    cases i with
    | zero => exact .some hab
    | succ i => exact ih i

end Array.Corresponds

end Containers

/-! ## Words and code -/

/-- Two words that say the same, or name entries that belong together. -/
inductive Word.Renamed (ρ : Renaming) : Word → Word → Prop
  | same {word : Word} : (∀ index, word.view ≠ .entry index) → Renamed ρ word word
  | entry {word word' : Word} {index index' : Nat} : word.view = .entry index →
    word'.view = .entry index' → ρ.entry index index' → Renamed ρ word word'

/-- Two instructions that only differ in the words of constants. -/
inductive Instruction.Renamed (ρ : Renaming) : Instruction → Instruction → Prop
  | const {word word' : Word} : word.Renamed ρ word' → Renamed ρ (.const word) (.const word')
  | lookup {word word' : Word} : word.Renamed ρ word' → Renamed ρ (.lookup word) (.lookup word')
  | register {word word' : Word} :
    word.Renamed ρ word' → Renamed ρ (.register word) (.register word')
  | load (slot : UInt32) : Renamed ρ (.load slot) (.load slot)
  | store (slot : UInt32) : Renamed ρ (.store slot) (.store slot)
  | dup : Renamed ρ .dup .dup
  | pop : Renamed ρ .pop .pop
  | swap : Renamed ρ .swap .swap
  | call (argc : UInt32) : Renamed ρ (.call argc) (.call argc)
  | ret : Renamed ρ .ret .ret
  | goto (target : UInt32) : Renamed ρ (.goto target) (.goto target)
  | jumpIfFalse (target : UInt32) : Renamed ρ (.jumpIfFalse target) (.jumpIfFalse target)
  | new {word word' : Word} : word.Renamed ρ word' → Renamed ρ (.new word) (.new word')
  | get {word word' : Word} : word.Renamed ρ word' → Renamed ρ (.get word) (.get word')
  | put {word word' : Word} : word.Renamed ρ word' → Renamed ρ (.put word) (.put word')

/-- Two pieces of code that only differ in the words of constants. -/
def Fragment.Renamed (ρ : Renaming) : Fragment → Fragment → Prop :=
  List.Forall₂ fun a b ↦ a.1.Renamed ρ b.1 ∧ a.2 = b.2

/-- Code of two functions that only differs in the words of constants. -/
inductive Code.Renamed (ρ : Renaming) : Code → Code → Prop
  | mk {fragment fragment' : Fragment} (arity slots : Nat) : fragment.Renamed ρ fragment' →
    Renamed ρ ⟨fragment.words.toArray, fragment.lines.toArray, arity, slots⟩
      ⟨fragment'.words.toArray, fragment'.lines.toArray, arity, slots⟩

section Words

variable {ρ ρ' ρ₁ ρ₂ : Renaming} {word word' word₁ word₂ : Word}

theorem Word.Renamed.mono (h : word.Renamed ρ word') (hρ : ρ.Extends ρ') :
    word.Renamed ρ' word' := by
  cases h with
  | same hview => exact .same hview
  | entry hview hview' hentry => exact .entry hview hview' (hρ.entry _ _ hentry)

theorem Word.Renamed.join (h₁ : word.Renamed ρ₁ word₁) (h₂ : word.Renamed ρ₂ word₂) :
    word₁.Renamed (ρ₁.join ρ₂) word₂ := by
  cases h₁ with
  | same hview =>
    cases h₂ with
    | same _ => exact .same hview
    | entry hview' _ _ => exact absurd hview' (hview _)
  | entry hview hview₁ hentry₁ =>
    cases h₂ with
    | same hview' => exact absurd hview (hview' _)
    | entry hview' hview₂ hentry₂ =>
      obtain rfl := Word.View.entry.inj (hview.symm.trans hview')
      exact .entry hview₁ hview₂ ⟨_, hentry₁, hentry₂⟩

/-- Words of numbers and references are the same in both runs. -/
theorem Word.Renamed.view (h : word.Renamed ρ word') :
    (∃ index index', word.view = .entry index ∧ word'.view = .entry index' ∧
      ρ.entry index index') ∨ word' = word ∧ ∀ index, word.view ≠ .entry index := by
  cases h with
  | same hview => exact .inr ⟨rfl, hview⟩
  | entry hview hview' hentry => exact .inl ⟨_, _, hview, hview', hentry⟩

theorem Word.Renamed.asSmall?_eq (h : word.Renamed ρ word') : word.asSmall? = word'.asSmall? := by
  cases h with
  | same _ => rfl
  | entry hview hview' _ =>
    unfold Word.asSmall?
    rw [hview, hview']

theorem Word.renamed_small (ρ : Renaming) (n : Nat) : (small n).Renamed ρ (small n) := by
  refine .same fun index hview ↦ ?_
  have hodd : (small n).bits.toNat % 2 = 1 := by
    unfold small
    rw [UInt32.toNat_ofNat']
    omega
  unfold Word.view at hview
  rw [if_pos hodd] at hview
  cases hview

/-- A word that names an entry is not the number zero. -/
theorem Word.Renamed.eq_zero_iff (h : word.Renamed ρ word') : word = zero ↔ word' = zero := by
  cases h with
  | same _ => exact Iff.rfl
  | entry hview hview' _ =>
    have hzero : zero.view = .small 0 := rfl
    constructor
    · rintro rfl
      cases hview.symm.trans hzero
    · rintro rfl
      cases hview'.symm.trans hzero

theorem Word.renamed_ofInt? {n : Int32} (ρ : Renaming) (h : Word.ofInt? n = some word) :
    word.Renamed ρ word := by
  unfold Word.ofInt? at h
  split at h
  · cases h
  · rw [← Option.some.inj h]
    exact Word.renamed_small ρ _

theorem Word.renamed_reference {index : Nat} (ρ : Renaming)
    (h : Word.reference? index = some word) : word.Renamed ρ word :=
  .same fun index' hview ↦ by simp [Word.view_of_reference? h] at hview

theorem Instruction.Renamed.mono {i j : Instruction} (h : i.Renamed ρ j) (hρ : ρ.Extends ρ') :
    i.Renamed ρ' j := by
  cases h with
  | const h => exact .const (h.mono hρ)
  | lookup h => exact .lookup (h.mono hρ)
  | register h => exact .register (h.mono hρ)
  | new h => exact .new (h.mono hρ)
  | get h => exact .get (h.mono hρ)
  | put h => exact .put (h.mono hρ)
  | _ => constructor

theorem Instruction.Renamed.join {i j k : Instruction} (h₁ : i.Renamed ρ₁ j)
    (h₂ : i.Renamed ρ₂ k) : j.Renamed (ρ₁.join ρ₂) k := by
  cases h₁ <;> cases h₂ <;> constructor <;> exact Word.Renamed.join ‹_› ‹_›

theorem Instruction.Renamed.opcode_eq {i j : Instruction} (h : i.Renamed ρ j) :
    i.opcode = j.opcode := by
  cases h <;> rfl

theorem Instruction.Renamed.size_eq {i j : Instruction} (h : i.Renamed ρ j) : i.size = j.size := by
  unfold Instruction.size
  rw [h.opcode_eq]

namespace Fragment.Renamed

variable {a b c d : Fragment}

theorem mono (h : a.Renamed ρ b) (hρ : ρ.Extends ρ') : a.Renamed ρ' b :=
  List.Forall₂.imp (fun _ _ h ↦ ⟨h.1.mono hρ, h.2⟩) h

theorem join (h₁ : a.Renamed ρ₁ b) (h₂ : a.Renamed ρ₂ c) : b.Renamed (ρ₁.join ρ₂) c := by
  induction h₁ generalizing c with
  | nil =>
    cases h₂
    exact .nil
  | cons hfirst _ ih =>
    cases h₂ with
    | cons hsecond hrest =>
      exact .cons ⟨hfirst.1.join hsecond.1, hfirst.2.symm.trans hsecond.2⟩ (ih hrest)

theorem append (h : a.Renamed ρ b) (h' : c.Renamed ρ d) : (a ++ c).Renamed ρ (b ++ d) :=
  List.rel_append h h'

theorem single {i j : Instruction} (h : i.Renamed ρ j) (line : UInt32) :
    Fragment.Renamed ρ [(i, line)] [(j, line)] :=
  .cons ⟨h, rfl⟩ .nil

theorem size_eq (h : a.Renamed ρ b) : a.size = b.size := by
  induction h with
  | nil => rfl
  | cons hab _ ih =>
    unfold Fragment.size
    rw [hab.1.size_eq, ih]

theorem lines_eq (h : a.Renamed ρ b) : a.lines = b.lines := by
  induction h with
  | nil => rfl
  | @cons first second rest rest' hab _ ih =>
    have hfirst : List.replicate first.1.size first.2 = List.replicate second.1.size second.2 := by
      rw [hab.1.size_eq, hab.2]
    exact congrArg₂ (· ++ ·) hfirst ih

/-- A piece behind another one corresponds to a piece behind another one. -/
theorem split (h : (a ++ c).Renamed ρ b) :
    ∃ b₁ b₂, b = b₁ ++ b₂ ∧ a.Renamed ρ b₁ ∧ c.Renamed ρ b₂ := by
  induction a generalizing b with
  | nil => exact ⟨[], b, rfl, .nil, h⟩
  | cons first rest ih =>
    cases h with
    | cons hfirst hrest =>
      obtain ⟨b₁, b₂, rfl, h₁, h₂⟩ := ih hrest
      exact ⟨_ :: b₁, b₂, rfl, .cons hfirst h₁, h₂⟩

end Fragment.Renamed

/-- Instructions can be read off their words. -/
theorem Instruction.eq_of_words {i j : Instruction} {rest rest' : List UInt32}
    (h : i.words ++ rest = j.words ++ rest') : i = j ∧ rest = rest' := by
  have hop : i.opcode.word = j.opcode.word := (List.cons.inj h).1
  have hopcode : i.opcode = j.opcode := by
    have hsame := congrArg Opcode.ofWord? hop
    rw [Opcode.ofWord?_word, Opcode.ofWord?_word] at hsame
    exact Option.some.inj hsame
  have htail : i.operand?.toList ++ rest = j.operand?.toList ++ rest' := (List.cons.inj h).2
  have hoperand : i.operand? = j.operand? ∧ rest = rest' := by
    cases i <;> cases j <;> first
      | cases hopcode; exact ⟨rfl, htail⟩
      | cases hopcode; exact ⟨congrArg some (List.cons.inj htail).1, (List.cons.inj htail).2⟩
      | cases hopcode
  refine ⟨?_, hoperand.2⟩
  rw [← instruction_operand? i, ← instruction_operand? j, hopcode, hoperand.1]

/-- A piece of code can be read off its words and lines. -/
theorem Fragment.eq_of_words {a b : Fragment} (hwords : a.words = b.words)
    (hlines : a.lines = b.lines) : a = b := by
  induction a generalizing b with
  | nil =>
    cases b with
    | nil => rfl
    | cons first rest => cases hwords
  | cons first rest ih =>
    cases b with
    | nil => cases hwords
    | cons first' rest' =>
      obtain ⟨i, line⟩ := first
      obtain ⟨j, line'⟩ := first'
      obtain ⟨rfl, hrest⟩ := Instruction.eq_of_words hwords
      have hparts : List.replicate i.size line ++ Fragment.lines rest =
          List.replicate i.size line' ++ Fragment.lines rest' := hlines
      obtain ⟨hline, htail⟩ := List.append_inj hparts (by simp)
      obtain rfl := (List.replicate_inj.mp hline).2.resolve_left (Nat.ne_of_gt i.size_pos)
      rw [ih hrest htail]

namespace Code.Renamed

variable {code code' code₁ code₂ : Code}

theorem mono (h : code.Renamed ρ code') (hρ : ρ.Extends ρ') : code.Renamed ρ' code' := by
  cases h with
  | mk arity slots h => exact .mk arity slots (h.mono hρ)

theorem arity_eq (h : code.Renamed ρ code') : code.arity = code'.arity := by
  cases h
  rfl

theorem slots_eq (h : code.Renamed ρ code') : code.slots = code'.slots := by
  cases h
  rfl

theorem lines_eq (h : code.Renamed ρ code') : code.lines = code'.lines := by
  cases h with
  | mk arity slots h => exact congrArg List.toArray h.lines_eq

theorem join (h₁ : code.Renamed ρ₁ code₁) (h₂ : code.Renamed ρ₂ code₂) :
    code₁.Renamed (ρ₁.join ρ₂) code₂ := by
  cases h₁ with
  | @mk fragment fragment₁ arity slots h₁ =>
    generalize hcode : (⟨fragment.words.toArray, fragment.lines.toArray, arity, slots⟩ : Code) =
      code at h₂
    cases h₂ with
    | @mk same fragment₂ _ _ h₂ =>
      obtain ⟨hwords, hlines, rfl, rfl⟩ := Code.mk.inj hcode
      obtain rfl := Fragment.eq_of_words (List.toArray_inj hwords) (List.toArray_inj hlines)
      exact .mk arity slots (h₁.join h₂)

/-- Where an instruction stands in the one code, one that corresponds to it stands in the other. -/
theorem fetch? (h : code.Renamed ρ code') {pc : Nat} {i : Instruction} {line : UInt32}
    {rest : Fragment} (hcode : code.Contains pc ((i, line) :: rest)) :
    ∃ j, i.Renamed ρ j ∧ code'.fetch? pc = some (.instruction j) := by
  cases h with
  | @mk fragment fragment' arity slots h =>
    obtain ⟨before, after, rfl, hwords, hlines⟩ := hcode
    obtain rfl := Fragment.eq_of_words (List.toArray_inj hwords) (List.toArray_inj hlines)
    rw [List.append_assoc, List.cons_append] at h
    obtain ⟨before', behind, rfl, hbefore, hbehind⟩ := h.split
    cases hbehind with
    | @cons _ found _ rest' hfirst _ =>
      obtain ⟨j, line'⟩ := found
      refine ⟨j, hfirst.1, ?_⟩
      have hplace : Code.Contains
          ⟨(Fragment.words (before' ++ (j, line') :: rest')).toArray,
            (Fragment.lines (before' ++ (j, line') :: rest')).toArray, arity, slots⟩
          before'.size ((j, line') :: rest') :=
        ⟨before', [], rfl, by rw [List.append_nil], by rw [List.append_nil]⟩
      rw [hbefore.size_eq]
      exact hplace.fetch?

end Code.Renamed

end Words

/-! ## Values and records -/

/-- Two functions that are the same built-in one, or were compiled alike. -/
inductive Function.Renamed (ρ : Renaming) : Function → Function → Prop
  | builtin (op : Builtin) : Renamed ρ op.function op.function
  | compiled {id id' : Nat} {name : String} {code code' : Code} : ρ.id id id' →
    code.Renamed ρ code' → Renamed ρ ⟨id, name, .bytecode code⟩ ⟨id', name, .bytecode code'⟩

/-- Two values that are the same up to the numbers of functions, shapes and records. -/
inductive Value.Renamed (ρ : Renaming) : Value → Value → Prop
  | basic {value : Value} : value.IsBasic → Renamed ρ value value
  | function {f f' : Function} : f.Renamed ρ f' → Renamed ρ (.function f) (.function f')
  | shape {id id' : Nat} (layout : Shape) :
    ρ.id id id' → Renamed ρ (.shape id layout) (.shape id' layout)
  | record {id id' : RecordId} : ρ.record id id' → Renamed ρ (.record id) (.record id')

/-- Two records were copied from the same cell of heaps that belong together. -/
def Origin.Renamed (ρ : Renaming) (origin origin' : Origin) : Prop :=
  ρ.heap origin.heap origin'.heap ∧ origin.index = origin'.index

/-- Two records with the same names, whose values correspond. -/
structure Record.Renamed (ρ : Renaming) (record record' : Record) : Prop where
  shape : record.shape = record'.shape
  fields : Array.Corresponds (Value.Renamed ρ) record.fields record'.fields
  origin : Option.Rel (Origin.Renamed ρ) record.origin record'.origin

/-- Records that belong together correspond. -/
def Records.Renamed (ρ : Renaming) (records records' : Records) : Prop :=
  ∀ id id', ρ.record id id' →
    Option.Rel (Record.Renamed ρ) (records.get? id) (records'.get? id')

/-- The same names are bound, to values that correspond. -/
def Bindings.Renamed (ρ : Renaming) (bindings bindings' : Bindings) : Prop :=
  ∀ name, Option.Rel (Value.Renamed ρ) (bindings.get? name) (bindings'.get? name)

/-- Entries that belong together hold values that correspond. -/
def Dictionary.Renamed (ρ : Renaming) (dict dict' : Dictionary) : Prop :=
  ∀ index index', ρ.entry index index' → ∃ value value', dict.get? index = some value ∧
    dict'.get? index' = some value' ∧ value.Renamed ρ value'

section Values

variable {ρ ρ' ρ₁ ρ₂ : Renaming}

theorem Function.Renamed.mono {f f' : Function} (h : f.Renamed ρ f') (hρ : ρ.Extends ρ') :
    f.Renamed ρ' f' := by
  cases h with
  | builtin op => exact .builtin op
  | compiled hid hcode => exact .compiled (hρ.id _ _ hid) (hcode.mono hρ)

theorem Function.Renamed.name_eq {f f' : Function} (h : f.Renamed ρ f') : f.name = f'.name := by
  cases h <;> rfl

theorem Function.Renamed.join {f f₁ f₂ : Function} (h₁ : f.Renamed ρ₁ f₁) (h₂ : f.Renamed ρ₂ f₂) :
    f₁.Renamed (ρ₁.join ρ₂) f₂ := by
  cases h₁ with
  | builtin op =>
    generalize hf : op.function = f at h₂
    cases h₂ with
    | builtin op' => exact hf ▸ .builtin op
    | compiled _ _ => cases hf
  | @compiled id id₁ name code code₁ hid₁ hcode₁ =>
    generalize hf : (⟨id, name, .bytecode code⟩ : Function) = f at h₂
    cases h₂ with
    | builtin op => cases hf
    | compiled hid₂ hcode₂ =>
      obtain ⟨rfl, rfl, hbody⟩ := Function.mk.inj hf
      obtain rfl := Body.bytecode.inj hbody
      exact .compiled ⟨_, hid₁, hid₂⟩ (hcode₁.join hcode₂)

theorem Value.Renamed.mono {value value' : Value} (h : value.Renamed ρ value')
    (hρ : ρ.Extends ρ') : value.Renamed ρ' value' := by
  cases h with
  | basic hbasic => exact .basic hbasic
  | function hf => exact .function (hf.mono hρ)
  | shape layout hid => exact .shape layout (hρ.id _ _ hid)
  | record hid => exact .record (hρ.record _ _ hid)

theorem Value.Renamed.join {value value₁ value₂ : Value} (h₁ : value.Renamed ρ₁ value₁)
    (h₂ : value.Renamed ρ₂ value₂) : value₁.Renamed (ρ₁.join ρ₂) value₂ := by
  cases h₁ with
  | basic hbasic =>
    cases h₂ with
    | basic _ => exact .basic hbasic
    | _ => exact hbasic.elim
  | function hf₁ =>
    cases h₂ with
    | basic hbasic => exact hbasic.elim
    | function hf₂ => exact .function (hf₁.join hf₂)
  | shape layout hid₁ =>
    cases h₂ with
    | basic hbasic => exact hbasic.elim
    | shape _ hid₂ => exact .shape layout ⟨_, hid₁, hid₂⟩
  | record hid₁ =>
    cases h₂ with
    | basic hbasic => exact hbasic.elim
    | record hid₂ => exact .record ⟨_, hid₁, hid₂⟩

theorem Origin.Renamed.mono {origin origin' : Origin} (h : origin.Renamed ρ origin')
    (hρ : ρ.Extends ρ') : origin.Renamed ρ' origin' :=
  ⟨hρ.heap _ _ h.1, h.2⟩

theorem Origin.Renamed.join {origin origin₁ origin₂ : Origin} (h₁ : origin.Renamed ρ₁ origin₁)
    (h₂ : origin.Renamed ρ₂ origin₂) : origin₁.Renamed (ρ₁.join ρ₂) origin₂ :=
  ⟨⟨_, h₁.1, h₂.1⟩, h₁.2.symm.trans h₂.2⟩

theorem Record.Renamed.mono {record record' : Record} (h : record.Renamed ρ record')
    (hρ : ρ.Extends ρ') : record.Renamed ρ' record' where
  shape := h.shape
  fields := h.fields.mono fun _ _ h ↦ h.mono hρ
  origin := Option.Rel.mono h.origin fun _ _ h ↦ h.mono hρ

theorem Record.Renamed.join {record record₁ record₂ : Record} (h₁ : record.Renamed ρ₁ record₁)
    (h₂ : record.Renamed ρ₂ record₂) : record₁.Renamed (ρ₁.join ρ₂) record₂ where
  shape := h₁.shape.symm.trans h₂.shape
  fields := h₁.fields.join h₂.fields fun _ _ _ h h' ↦ h.join h'
  origin := Option.Rel.join h₁.origin h₂.origin fun _ _ _ h h' ↦ h.join h'

theorem Records.Renamed.join {records records₁ records₂ : Records}
    (h₁ : records.Renamed ρ₁ records₁) (h₂ : records.Renamed ρ₂ records₂) :
    records₁.Renamed (ρ₁.join ρ₂) records₂ := by
  rintro id₁ id₂ ⟨id, hid₁, hid₂⟩
  exact Option.Rel.join (h₁ id id₁ hid₁) (h₂ id id₂ hid₂) fun _ _ _ h h' ↦ h.join h'

theorem Bindings.Renamed.mono {bindings bindings' : Bindings} (h : bindings.Renamed ρ bindings')
    (hρ : ρ.Extends ρ') : bindings.Renamed ρ' bindings' :=
  fun name ↦ Option.Rel.mono (h name) fun _ _ h ↦ h.mono hρ

theorem Bindings.Renamed.set {bindings bindings' : Bindings} (h : bindings.Renamed ρ bindings')
    (name : String) {value value' : Value} (hvalue : value.Renamed ρ value') :
    (bindings.set name value).Renamed ρ (bindings'.set name value') := by
  intro other
  rw [Bindings.get?_set, Bindings.get?_set]
  split
  · exact .some hvalue
  · exact h other

theorem Bindings.Renamed.join {bindings bindings₁ bindings₂ : Bindings}
    (h₁ : bindings.Renamed ρ₁ bindings₁) (h₂ : bindings.Renamed ρ₂ bindings₂) :
    bindings₁.Renamed (ρ₁.join ρ₂) bindings₂ :=
  fun name ↦ Option.Rel.join (h₁ name) (h₂ name) fun _ _ _ h h' ↦ h.join h'

theorem Dictionary.Renamed.join {dict dict₁ dict₂ : Dictionary} (h₁ : dict.Renamed ρ₁ dict₁)
    (h₂ : dict.Renamed ρ₂ dict₂) : dict₁.Renamed (ρ₁.join ρ₂) dict₂ := by
  rintro index₁ index₂ ⟨index, hindex₁, hindex₂⟩
  obtain ⟨value, value₁, hvalue, hvalue₁, hsame₁⟩ := h₁ index index₁ hindex₁
  obtain ⟨found, value₂, hfound, hvalue₂, hsame₂⟩ := h₂ index index₂ hindex₂
  obtain rfl := Option.some.inj (hvalue.symm.trans hfound)
  exact ⟨value₁, value₂, hvalue₁, hvalue₂, hsame₁.join hsame₂⟩

end Values

end TandemScript
