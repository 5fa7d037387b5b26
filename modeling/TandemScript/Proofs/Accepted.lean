import TandemScript.Proofs.Computation
import TandemScript.Proofs.Emission

/-!
# Accepted programs

What the compiler leaves behind when it accepts a tree: the emitted code, and a pool where what was
added are functions with emitted code of their own, functions and shapes with numbers of their own,
and nothing from outside. This is so whatever was in the pool before, if its numbers are used up.
-/

namespace TandemScript

/-! ## Orderly pools -/

/-- A value that the compiler may put into a dictionary. -/
def Value.Settled (dict : Dictionary) (nextId : Nat) : Value → Prop
  | .function f => Builtin.all.length ≤ f.id ∧ f.id < nextId ∧
    ∃ outer params body, Block.EmitsFunction dict body outer f.name params f
  | .shape id _ => id < nextId
  | .record _ => False
  | _ => True

theorem Value.Settled.mono {dict dict' : Dictionary} {nextId nextId' : Nat} {value : Value}
    (h : value.Settled dict nextId) (hgrows : dict.GrowsTo dict') (hle : nextId ≤ nextId') :
    value.Settled dict' nextId' := by
  cases value with
  | function f =>
    obtain ⟨hbuiltin, hid, outer, params, body, hemits⟩ := h
    exact ⟨hbuiltin, Nat.lt_of_lt_of_le hid hle, outer, params, body, hemits.mono hgrows⟩
  | shape id shape => exact Nat.lt_of_lt_of_le h hle
  | record id => exact h
  | _ => trivial

/-- The number of a function or a shape is below a bound. -/
def Value.IsNumberedBelow (bound : Nat) : Value → Prop
  | .function f => f.id < bound
  | .shape id _ => id < bound
  | _ => True

theorem Value.IsNumberedBelow.mono {bound bound' : Nat} {value : Value}
    (h : value.IsNumberedBelow bound) (hle : bound ≤ bound') : value.IsNumberedBelow bound' := by
  cases value with
  | function f => exact Nat.lt_of_lt_of_le h hle
  | shape id shape => exact Nat.lt_of_lt_of_le h hle
  | _ => trivial

theorem Value.Settled.isNumberedBelow {dict : Dictionary} {nextId : Nat} {value : Value}
    (h : value.Settled dict nextId) : value.IsNumberedBelow nextId := by
  cases value with
  | function f => exact h.2.1
  | shape id shape => exact h
  | _ => trivial

namespace Pool

/-- The next number is that of no built-in function, and of no function and no shape in the
dictionary. -/
structure Numbered (pool : Pool) : Prop where
  undefined : pool.dict.get? 0 = some .undefined
  builtins : Builtin.all.length ≤ pool.nextId
  numbers : ∀ index value, pool.dict.get? index = some value →
    value.IsNumberedBelow pool.nextId

/-- A pool as the compiler keeps it. -/
structure Orderly (pool : Pool) : Prop where
  undefined : pool.dict.get? 0 = some .undefined
  builtins : Builtin.all.length ≤ pool.nextId
  entries : ∀ index value, pool.dict.get? index = some value →
    value.Settled pool.dict pool.nextId
  unique : ∀ index index' f g, pool.dict.get? index = some (.function f) →
    pool.dict.get? index' = some (.function g) → f.id = g.id → f = g

theorem Orderly.numbered {pool : Pool} (h : pool.Orderly) : pool.Numbered :=
  ⟨h.undefined, h.builtins, fun index value hvalue ↦ (h.entries index value hvalue).isNumberedBelow⟩

theorem orderly_new (level : Option Level) (config : Config) :
    (RunState.new config level).toPool.Orderly where
  undefined := rfl
  builtins := Nat.le_refl _
  entries index value h := by
    have hvalue : value = .undefined := by
      unfold Dictionary.get? at h
      obtain ⟨hlt, rfl⟩ := Array.getElem?_eq_some_iff.mp h
      exact Array.getElem_singleton hlt
    rw [hvalue]
    trivial
  unique index index' f g h := by
    unfold Dictionary.get? at h
    obtain ⟨hlt, h⟩ := Array.getElem?_eq_some_iff.mp h
    exact absurd ((Array.getElem_singleton hlt).symm.trans h) (by simp)

/-- The second pool has all entries and all numbers of the first one. What was added has numbers of
its own, and nothing of it comes from outside. -/
structure Becomes (pool pool' : Pool) : Prop where
  numbered : pool'.Numbered
  grows : pool.dict.GrowsTo pool'.dict
  nextId : pool.nextId ≤ pool'.nextId
  added : ∀ index value, pool.dict.get? index = none → pool'.dict.get? index = some value →
    value.Settled pool'.dict pool'.nextId
  unique : ∀ index index' f g, pool.dict.get? index = none →
    pool'.dict.get? index = some (.function f) → pool'.dict.get? index' = some (.function g) →
    f.id = g.id → f = g

namespace Becomes

variable {pool pool' pool'' : Pool}

/-- Where the dictionary stays as it is, only numbers may have been used up. -/
theorem of_dict (h : pool.Numbered) (hdict : pool'.dict = pool.dict)
    (hle : pool.nextId ≤ pool'.nextId) : pool.Becomes pool' where
  numbered := by
    refine ⟨hdict ▸ h.undefined, Nat.le_trans h.builtins hle, fun index value hvalue ↦ ?_⟩
    rw [hdict] at hvalue
    exact (h.numbers index value hvalue).mono hle
  grows := hdict ▸ .refl _
  nextId := hle
  added index value hnone hvalue := by
    rw [hdict, hnone] at hvalue
    cases hvalue
  unique index index' f g hnone hf := by
    rw [hdict, hnone] at hf
    cases hf

theorem refl (h : pool.Numbered) : pool.Becomes pool :=
  .of_dict h rfl (Nat.le_refl _)

theorem trans (h : pool.Becomes pool') (h' : pool'.Becomes pool'') : pool.Becomes pool'' where
  numbered := h'.numbered
  grows := h.grows.trans h'.grows
  nextId := Nat.le_trans h.nextId h'.nextId
  added index value hnone hvalue := by
    cases hmid : pool'.dict.get? index with
    | none => exact h'.added index value hmid hvalue
    | some found =>
      obtain rfl := Option.some.inj ((h'.grows.get? hmid).symm.trans hvalue)
      exact (h.added index found hnone hmid).mono h'.grows h'.nextId
  unique index index' f g hnone hf hg hid := by
    cases hmid : pool'.dict.get? index with
    | none => exact h'.unique index index' f g hmid hf hg hid
    | some found =>
      obtain rfl := Option.some.inj ((h'.grows.get? hmid).symm.trans hf)
      cases hmid' : pool'.dict.get? index' with
      | none => exact (h'.unique index' index g f hmid' hg hf hid.symm).symm
      | some other =>
        obtain rfl := Option.some.inj ((h'.grows.get? hmid').symm.trans hg)
        exact h.unique index index' f g hnone hmid hmid' hid

theorem orderly (h : pool.Becomes pool') (horderly : pool.Orderly) : pool'.Orderly where
  undefined := h.numbered.undefined
  builtins := h.numbered.builtins
  entries index value hvalue := by
    cases hold : pool.dict.get? index with
    | none => exact h.added index value hold hvalue
    | some found =>
      obtain rfl := Option.some.inj ((h.grows.get? hold).symm.trans hvalue)
      exact (horderly.entries index found hold).mono h.grows h.nextId
  unique index index' f g hf hg hid := by
    cases hold : pool.dict.get? index with
    | none => exact h.unique index index' f g hold hf hg hid
    | some found =>
      obtain rfl := Option.some.inj ((h.grows.get? hold).symm.trans hf)
      cases hold' : pool.dict.get? index' with
      | none => exact (h.unique index' index g f hold' hg hf hid.symm).symm
      | some other =>
        obtain rfl := Option.some.inj ((h.grows.get? hold').symm.trans hg)
        exact horderly.unique index index' f g hold hold' hid

end Becomes

end Pool

namespace Compile

/-- From a pool the computation refuses, or it leaves one that the pool becomes, and whose
dictionary fits the result. -/
def Yields {α : Type} (x : Compile α) (pool : Pool) (P : Dictionary → α → Prop) : Prop :=
  Ensures x pool (fun a pool' ↦ pool.Becomes pool' ∧ P pool'.dict a) fun _ _ ↦ True

namespace Yields

variable {α β : Type} {x : Compile α} {f : α → Compile β} {pool : Pool}
  {P : Dictionary → α → Prop} {Q : Dictionary → β → Prop}

theorem pure {a : α} (h : pool.Numbered) (hP : P pool.dict a) :
    Yields (Pure.pure a : Compile α) pool P :=
  Ensures.pure ⟨.refl h, hP⟩

theorem bind (hx : Yields x pool P)
    (hf : ∀ a pool', pool.Becomes pool' → P pool'.dict a → Yields (f a) pool' Q) :
    Yields (x >>= f) pool Q := by
  refine Ensures.bind hx ?_
  rintro a pool' ⟨hbecomes, hP⟩
  refine (hf a pool' hbecomes hP).mono ?_ fun _ _ h ↦ h
  rintro b pool'' ⟨hbecomes', hQ⟩
  exact ⟨hbecomes.trans hbecomes', hQ⟩

theorem mono {P' : Dictionary → α → Prop} (hx : Yields x pool P)
    (h : ∀ dict a, P dict a → P' dict a) : Yields x pool P' :=
  Ensures.mono hx (fun _ _ hP ↦ ⟨hP.1, h _ _ hP.2⟩) fun _ _ h ↦ h

end Yields

/-! ## Interning constants -/

theorem constant_apply (value : Value) (pool : Pool) :
    constant value pool = match Dictionary.intern value pool.dict with
      | .ok word dict => .ok word { pool with dict }
      | .error failure dict => .error failure { pool with dict } := rfl

/-- A value may be interned if it may stand in the dictionary, and if a function with its number can
only be the function itself. -/
theorem constant_spec {pool : Pool} (h : pool.Numbered) {value : Value}
    (hsettled : value.Settled pool.dict pool.nextId)
    (hunique : ∀ f, value = .function f → ∀ index g,
      pool.dict.get? index = some (.function g) → f.id = g.id → f = g) :
    Ensures (constant value) pool
      (fun word pool' ↦ pool.Becomes pool' ∧ ∃ found, pool'.dict.value word = .ok found ∧
        value.sharesEntry found = true ∧
        ((∃ index, pool.dict.get? index = some found) ∨ found = value))
      (fun _ _ ↦ True) := by
  unfold Ensures
  rw [constant_apply]
  rcases Dictionary.intern_spec value pool.dict with ⟨word, dict', found, hintern, hspec⟩ | h'
  · simp only [hintern]
    refine ⟨⟨⟨hspec.grows.get? h.undefined, h.builtins, ?_⟩, hspec.grows, Nat.le_refl _, ?_, ?_⟩,
      found, hspec.names, hspec.shares, hspec.origin⟩
    · intro index other hother
      rcases hspec.added index other hother with hold | rfl
      · exact h.numbers index other hold
      · exact hsettled.isNumberedBelow
    · intro index other hnone hother
      rcases hspec.added index other hother with hold | rfl
      · rw [hnone] at hold
        cases hold
      · exact hsettled.mono hspec.grows (Nat.le_refl _)
    · intro index index' f g hnone hf hg hid
      rcases hspec.added index _ hf with hold | hf
      · rw [hnone] at hold
        cases hold
      rcases hspec.added index' _ hg with hg | hg
      · exact hunique f hf.symm index' g hg hid
      · exact Value.function.inj (hf.trans hg.symm)
  · simp only [h'.1]

/-- A value that is neither a function nor a shape nor a record gets a word of its own. -/
theorem constant_plain {pool : Pool} (h : pool.Numbered) {value : Value}
    (hfunction : ∀ f, value ≠ .function f) (hshape : ∀ id shape, value ≠ .shape id shape)
    (hrecord : ∀ id, value ≠ .record id) :
    Yields (constant value) pool fun dict word ↦ dict.value word = .ok value := by
  have hsettled : value.Settled pool.dict pool.nextId := by
    cases value with
    | function f => exact absurd rfl (hfunction f)
    | shape id shape => exact absurd rfl (hshape id shape)
    | record id => exact absurd rfl (hrecord id)
    | _ => trivial
  refine (constant_spec h hsettled fun f hf ↦ absurd hf (hfunction f)).mono ?_ fun _ _ h ↦ h
  rintro word pool' ⟨hbecomes, found, hfound, hshares, -⟩
  rw [Value.eq_of_sharesEntry hshares hfunction hshape] at hfound
  exact ⟨hbecomes, hfound⟩

theorem name_spec {pool : Pool} (h : pool.Numbered) (s : String) :
    Yields (name s) pool fun dict word ↦ dict.value word = .ok (.str s) :=
  constant_plain h (by simp) (by simp) (by simp)

/-- A function with a new number gets a word of its own. -/
theorem constant_function {pool : Pool} (h : pool.Numbered) {f : Function}
    (hsettled : (Value.function f).Settled pool.dict pool.nextId)
    (hfresh : ∀ index g, pool.dict.get? index = some (.function g) → g.id < f.id) :
    Yields (constant (.function f)) pool fun dict word ↦
      dict.value word = .ok (.function f) := by
  refine (constant_spec h hsettled ?_).mono ?_ fun _ _ h ↦ h
  · rintro _ ⟨⟩ index g hg hid
    have hlt := hfresh index g hg
    omega
  · rintro word pool' ⟨hbecomes, found, hfound, hshares, ⟨index, hold⟩ | rfl⟩
    · obtain ⟨g, rfl, hid⟩ := Value.function_of_sharesEntry hshares
      have hlt := hfresh index g hold
      omega
    · exact ⟨hbecomes, hfound⟩

/-- A shape with a new number gets a word of its own. -/
theorem constant_freshShape {pool : Pool} (h : pool.Numbered) (shape : Shape) :
    Yields (do constant (.shape (← freshId) shape)) pool fun dict word ↦
      dict.shape word = .ok shape := by
  have hnext : pool.Becomes { pool with nextId := pool.nextId + 1 } :=
    .of_dict h rfl (Nat.le_succ _)
  have hid : freshId pool = .ok pool.nextId { pool with nextId := pool.nextId + 1 } := rfl
  refine Ensures.bind (P := fun id pool' ↦
    id = pool.nextId ∧ pool' = { pool with nextId := pool.nextId + 1 })
    (.of_ok hid ⟨rfl, rfl⟩) ?_
  rintro _ _ ⟨rfl, rfl⟩
  have hsettled : (Value.shape pool.nextId shape).Settled pool.dict (pool.nextId + 1) :=
    Nat.lt_succ_self _
  refine (constant_spec hnext.numbered hsettled (by simp)).mono ?_ fun _ _ h ↦ h
  rintro word pool' ⟨hbecomes, found, hfound, hshares, ⟨index, hold⟩ | rfl⟩
  · obtain ⟨other, rfl⟩ := Value.shape_of_sharesEntry hshares
    exact absurd (h.numbers index _ hold) (Nat.lt_irrefl _)
  · exact ⟨hnext.trans hbecomes, Dictionary.shape_of_value hfound⟩

end Compile

/-! ## Compiling trees -/

open Compile (Yields)

theorem Site.fail_yields {α : Type} (site : Site) (line : UInt32) (cause : Cause) (pool : Pool)
    (P : Dictionary → α → Prop) : Yields (site.fail line cause) pool P :=
  .of_error rfl trivial

theorem Site.needsValue_yields (site : Site) (line : UInt32) (e : Expr) {pool : Pool}
    (h : pool.Numbered) :
    Yields (site.needsValue line e) pool fun _ _ ↦ e.isInstruction = false := by
  unfold Site.needsValue
  split
  · exact site.fail_yields _ _ _ _
  · next he => exact .pure h (Bool.not_eq_true _ ▸ he)

theorem Site.warnIfOuter_yields (site : Site) (line : UInt32) (name : String) {pool : Pool}
    (h : pool.Numbered) : Yields (site.warnIfOuter line name) pool fun _ _ ↦ True := by
  unfold Site.warnIfOuter
  split
  · exact .of_ok rfl ⟨.of_dict h rfl (Nat.le_refl _), trivial⟩
  · exact .pure h trivial

theorem Site.readVar_yields (site : Site) (start : Nat) (line : UInt32) (name : String)
    (l : UInt32) {pool : Pool} (h : pool.Numbered) :
    Yields (site.readVar line name) pool fun dict code ↦
      (Expr.var name l).Emits dict site start line code := by
  unfold Site.readVar
  cases hslot : site.slot? name with
  | some slot => exact .pure h (.load hslot)
  | none =>
    refine .bind (site.warnIfOuter_yields line name h) fun _ pool₁ hbecomes _ ↦ ?_
    refine .bind (Compile.name_spec hbecomes.numbered name) fun word pool₂ hbecomes hword ↦ ?_
    exact .pure hbecomes.numbered (.lookup hslot hword)

theorem Literal.compile_yields (line : UInt32) (value : Literal) {pool : Pool}
    (h : pool.Numbered) :
    Yields (value.compile line) pool fun dict code ↦
      ∃ word, code = [(.const word, line)] ∧ dict.Denotes word value.value := by
  unfold Literal.compile
  cases value with
  | int n =>
    simp only
    cases hword : Word.ofInt? n with
    | some word => exact .pure h ⟨word, rfl, .small hword⟩
    | none =>
      refine .bind (Compile.constant_plain h (by simp) (by simp) (by simp)) ?_
      intro word pool' hbecomes hvalue
      refine .pure hbecomes.numbered ⟨word, rfl, .entry hvalue ?_⟩
      rintro _ ⟨⟩
      exact hword
  | str s =>
    refine .bind (Compile.constant_plain h (by simp) (by simp) (by simp)) ?_
    intro word pool' hbecomes hvalue
    exact .pure hbecomes.numbered ⟨word, rfl, .entry hvalue (by simp [Literal.value])⟩

/-- The function of emitted code has a number that no function in the dictionary has. -/
theorem Compile.function_spec {pool : Pool} (h : pool.Numbered) (name : String)
    (params : List String) (scope : Shape) (fragment : Fragment) :
    Ensures (Compile.function name params scope fragment) pool
      (fun f pool' ↦ pool.Becomes pool' ∧
        f = fragment.function f.id name params scope ∧ f.id = pool.nextId ∧
        pool'.nextId = f.id + 1 ∧ pool'.dict = pool.dict)
      fun _ _ ↦ True := by
  exact .of_ok rfl ⟨.of_dict h rfl (Nat.le_succ _), rfl, rfl, rfl, rfl⟩

/-- A function that the compiler has just made. -/
structure Function.FreshFrom (f : Function) (body : Block) (outer : List Shape) (name : String)
    (params : List String) (pool : Pool) : Prop where
  emits : body.EmitsFunction pool.dict outer name params f
  settled : (Value.function f).Settled pool.dict pool.nextId
  fresh : ∀ index g, pool.dict.get? index = some (.function g) → g.id < f.id

mutual

theorem Expr.compile_yields (site : Site) (start : Nat) (outer : UInt32) (e : Expr) {pool : Pool}
    (h : pool.Numbered) :
    Yields (e.compile site start outer) pool fun dict code ↦
      e.Emits dict site start (e.lineWithin outer) code := by
  cases e with
  | block body => exact (Block.compile_yields site start _ body h).mono fun _ _ ↦ .block
  | literal value l =>
    refine (Literal.compile_yields _ value h).mono ?_
    rintro dict _ ⟨word, rfl, hword⟩
    exact .literal hword
  | var name l => exact site.readVar_yields start _ name l h
  | assign name value declares l =>
    unfold Expr.compile
    simp only
    split
    · exact site.fail_yields _ _ _ _
    · next slot hslot =>
      refine .bind (site.needsValue_yields _ value h) fun _ _ hb₁ hvalue ↦ ?_
      refine .bind (Expr.compile_yields site start _ value hb₁.numbered) fun code _ hb₂ hcode ↦ ?_
      exact .pure hb₂.numbered (.assign hslot hvalue hcode)
  | function name params body l =>
    refine Ensures.bind
      (Block.compileBody_spec site.scopes (name.getD Function.anonymous) params body h) ?_
    rintro f pool₁ ⟨hb₁, hf⟩
    refine Ensures.bind (Compile.constant_function hb₁.numbered hf.settled hf.fresh) ?_
    rintro word pool₂ ⟨hb₂, hword⟩
    have hemits := hf.emits.mono hb₂.grows
    cases name with
    | none => exact Ensures.pure ⟨hb₁.trans hb₂, .lambda hemits hword⟩
    | some name =>
      refine Ensures.bind (Compile.name_spec hb₂.numbered name) ?_
      rintro nameWord pool₃ ⟨hb₃, hname⟩
      exact Ensures.pure ⟨(hb₁.trans hb₂).trans hb₃,
        .named (hemits.mono hb₃.grows) (hb₃.grows.value hword) hname⟩
  | call callee args l =>
    refine .bind (site.needsValue_yields _ callee h) fun _ _ hb₁ hcallee ↦ ?_
    refine .bind (Expr.compile_yields site start _ callee hb₁.numbered) fun code _ hb₂ hcode ↦ ?_
    refine .bind (compileArgs_yields site _ _ args hb₂.numbered) fun operands _ hb₃ hargs ↦ ?_
    rw [Fragment.size_append] at hargs
    exact .pure hb₃.numbered (.call hcallee (hcode.mono hb₃.grows) hargs)
  | ret value l =>
    refine .bind (site.needsValue_yields _ value h) fun _ _ hb₁ hvalue ↦ ?_
    refine .bind (Expr.compile_yields site start _ value hb₁.numbered) fun code _ hb₂ hcode ↦ ?_
    exact .pure hb₂.numbered (.ret hvalue hcode)
  | cond test onTrue onFalse l =>
    refine .bind (site.needsValue_yields _ test h) fun _ _ hb₁ htest ↦ ?_
    refine .bind (Expr.compile_yields site start _ test hb₁.numbered) fun decision _ hb₂ hcode ↦ ?_
    refine .bind (Block.compile_yields site _ _ onTrue hb₂.numbered) fun whenTrue _ hb₃ hTrue ↦ ?_
    refine .bind (Block.compile_yields site _ _ onFalse hb₃.numbered)
      fun whenFalse _ hb₄ hFalse ↦ ?_
    exact .pure hb₄.numbered (.cond htest (hcode.mono (hb₃.grows.trans hb₄.grows))
      (hTrue.mono hb₄.grows) rfl hFalse rfl)
  | object fields l =>
    refine .bind (compileFields_yields site start _ fields h) fun code _ hb₁ hcode ↦ ?_
    have hshape := Compile.constant_freshShape hb₁.numbered (.ofKeys (fields.map Prod.fst))
    rw [← bind_assoc]
    refine .bind hshape fun word _ hb₂ hword ↦ ?_
    exact .pure hb₂.numbered (.object (hcode.mono hb₂.grows) hword)
  | field receiver name l =>
    refine .bind (site.needsValue_yields _ receiver h) fun _ _ hb₁ hreceiver ↦ ?_
    refine .bind (Expr.compile_yields site start _ receiver hb₁.numbered) fun code _ hb₂ hcode ↦ ?_
    refine .bind (Compile.name_spec hb₂.numbered name) fun word _ hb₃ hword ↦ ?_
    exact .pure hb₃.numbered (.field hreceiver (hcode.mono hb₃.grows) hword)
  | setField receiver name value l =>
    refine .bind (site.needsValue_yields _ receiver h) fun _ _ hb₁ hreceiver ↦ ?_
    refine .bind (Expr.compile_yields site start _ receiver hb₁.numbered)
      fun target _ hb₂ htarget ↦ ?_
    refine .bind (site.needsValue_yields _ value hb₂.numbered) fun _ _ hb₃ hvalue ↦ ?_
    refine .bind (Expr.compile_yields site _ _ value hb₃.numbered) fun code _ hb₄ hcode ↦ ?_
    refine .bind (Compile.name_spec hb₄.numbered name) fun word _ hb₅ hword ↦ ?_
    exact .pure hb₅.numbered (.setField hreceiver
      (htarget.mono ((hb₃.grows.trans hb₄.grows).trans hb₅.grows)) hvalue
      (hcode.mono hb₅.grows) hword)
  | method receiver name args l =>
    refine .bind (site.needsValue_yields _ receiver h) fun _ _ hb₁ hreceiver ↦ ?_
    refine .bind (Expr.compile_yields site start _ receiver hb₁.numbered)
      fun target _ hb₂ htarget ↦ ?_
    refine .bind (Compile.name_spec hb₂.numbered name) fun word _ hb₃ hword ↦ ?_
    refine .bind (compileArgs_yields site _ _ args hb₃.numbered) fun operands _ hb₄ hargs ↦ ?_
    rw [Fragment.size_append] at hargs
    exact .pure hb₄.numbered (.method hreceiver (htarget.mono (hb₃.grows.trans hb₄.grows))
      (hb₄.grows.value hword) hargs)

theorem Block.compile_yields (site : Site) (start : Nat) (line : UInt32) (body : Block)
    {pool : Pool} (h : pool.Numbered) :
    Yields (body.compile site start line) pool fun dict code ↦
      body.Emits dict site start line code := by
  cases body with
  | mk instrs l =>
    exact (compileInstrs_yields site start line instrs h).mono fun _ _ ↦ .mk

theorem Block.compileBody_spec (outer : List Shape) (name : String) (params : List String)
    (body : Block) {pool : Pool} (h : pool.Numbered) :
    Ensures (body.compileBody outer name params) pool
      (fun f pool' ↦ pool.Becomes pool' ∧ f.FreshFrom body outer name params pool')
      fun _ _ ↦ True := by
  cases body with
  | mk instrs line =>
    refine Ensures.bind (compileInstrs_yields ⟨name, _⟩ 0 line instrs h) ?_
    rintro code pool₁ ⟨hb₁, hcode⟩
    refine (Compile.function_spec hb₁.numbered name params _ _).mono ?_ fun _ _ h ↦ h
    rintro f pool₂ ⟨hb₂, hf, hid, hnext, hdict⟩
    have hemits : (Block.mk instrs line).EmitsFunction pool₂.dict outer name params f := by
      rw [hf]
      exact .mk (hcode.mono hb₂.grows)
    have hname : f.name = name := by rw [hf]; rfl
    refine ⟨hb₁.trans hb₂, hemits,
      ⟨hid ▸ hb₁.numbered.builtins, by omega, outer, params, _, hname ▸ hemits⟩, ?_⟩
    intro index g hg
    rw [hdict] at hg
    rw [hid]
    exact hb₁.numbered.numbers index _ hg

theorem compileInstrs_yields (site : Site) (start : Nat) (line : UInt32) (es : List Expr)
    {pool : Pool} (h : pool.Numbered) :
    Yields (compileInstrs site start line es) pool fun dict code ↦
      EmitsInstrs dict site start line es code := by
  cases es with
  | nil => exact .pure h .nil
  | cons e rest =>
    refine .bind (Expr.compile_yields site start line e h) fun code _ hb₁ hcode ↦ ?_
    simp only
    split
    · next he =>
      refine .bind (compileInstrs_yields site _ line rest hb₁.numbered) fun others _ hb₂ hrest ↦ ?_
      exact .pure hb₂.numbered (.instruction he (hcode.mono hb₂.grows) hrest)
    · next he =>
      refine .bind (compileInstrs_yields site _ line rest hb₁.numbered) fun others _ hb₂ hrest ↦ ?_
      rw [Fragment.size_append] at hrest
      exact .pure hb₂.numbered (.value (Bool.not_eq_true _ ▸ he) (hcode.mono hb₂.grows) hrest)

theorem compileArgs_yields (site : Site) (start : Nat) (line : UInt32) (es : List Expr)
    {pool : Pool} (h : pool.Numbered) :
    Yields (compileArgs site start line es) pool fun dict code ↦
      EmitsArgs dict site start line es code := by
  cases es with
  | nil => exact .pure h .nil
  | cons e rest =>
    refine .bind (site.needsValue_yields _ e h) fun _ _ hb₁ he ↦ ?_
    refine .bind (Expr.compile_yields site start line e hb₁.numbered) fun code _ hb₂ hcode ↦ ?_
    refine .bind (compileArgs_yields site _ line rest hb₂.numbered) fun others _ hb₃ hrest ↦ ?_
    exact .pure hb₃.numbered (.cons he (hcode.mono hb₃.grows) hrest)

theorem compileFields_yields (site : Site) (start : Nat) (line : UInt32)
    (fields : List (String × Expr)) {pool : Pool} (h : pool.Numbered) :
    Yields (compileFields site start line fields) pool fun dict code ↦
      EmitsFields dict site start line fields code := by
  cases fields with
  | nil => exact .pure h .nil
  | cons field rest =>
    obtain ⟨key, e⟩ := field
    refine .bind (site.needsValue_yields _ e h) fun _ _ hb₁ he ↦ ?_
    refine .bind (Expr.compile_yields site start line e hb₁.numbered) fun code _ hb₂ hcode ↦ ?_
    simp only
    split
    · next hkey =>
      refine .bind (compileFields_yields site _ line rest hb₂.numbered) fun others _ hb₃ hrest ↦ ?_
      rw [Fragment.size_append] at hrest
      exact .pure hb₃.numbered (.dropped hkey he (hcode.mono hb₃.grows) hrest)
    · next hkey =>
      refine .bind (compileFields_yields site _ line rest hb₂.numbered) fun others _ hb₃ hrest ↦ ?_
      exact .pure hb₃.numbered
        (.kept (Bool.not_eq_true _ ▸ hkey) he (hcode.mono hb₃.grows) hrest)

end

end TandemScript
