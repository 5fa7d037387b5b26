import TandemScript.Proofs.Tracking

/-!
# Compiling with a dictionary that was filled before

The same tree is compiled to code that only differs in the words of constants, whatever the
dictionary holds before, and whatever functions stand around it: a compiled function sees no
variables but its own.
-/

namespace TandemScript

variable {o : Offsets} {ρ : Renaming}

/-- The second pool has all entries of the first one, and shifted numbers. -/
structure Pool.Tracks (o : Offsets) (ρ : Renaming) (pool pool' : Pool) : Prop where
  dict : pool.dict.Tracks o ρ pool'.dict
  nextId : pool'.nextId = pool.nextId + o.ids
  builtins : Builtin.all.length ≤ pool.nextId

/-- Two functions with the same name and the same variables. -/
structure Site.Agrees (site site' : Site) : Prop where
  function : site.function = site'.function
  own : site.scopes.head? = site'.scopes.head?

theorem Site.Agrees.slot?_eq {site site' : Site} (h : site.Agrees site') (name : String) :
    site.slot? name = site'.slot? name := by
  unfold Site.slot?
  rw [h.own]

namespace Compile

theorem constant_lifts (value : Value) :
    Lifts Pool.dict (fun pool dict ↦ { pool with dict }) id (Dictionary.intern value)
      (constant value) := by
  intro pool
  rw [constant_apply]
  cases Dictionary.intern value pool.dict <;> rfl

theorem constant_alongside {value value' : Value} (h : value.Renamed ρ value') :
    Alongside Pool.dict (Pool.Tracks o) ρ Word.Renamed (constant value) (constant value') := by
  intro pool pool' htracks
  refine (Dictionary.intern_alongside h _ _ htracks.dict).lift (constant_lifts value _)
    (constant_lifts value' _) (fun _ ↦ rfl) fun _ _ _ _ hdict ↦ ?_
  exact ⟨hdict, htracks.nextId, htracks.builtins⟩

theorem constant_basic {value : Value} (h : value.IsBasic) :
    Alongside Pool.dict (Pool.Tracks o) ρ Word.Renamed (constant value) (constant value) :=
  constant_alongside (.basic h)

theorem report_parallel (event event' : Event) :
    Parallel (Pool.Tracks o ρ) (fun _ _ ↦ True) (report event) (report event') :=
  .modify fun _ _ h ↦ { h with }

theorem freshId_parallel : Parallel (Pool.Tracks o ρ) ρ.id freshId freshId :=
  fun _ _ h ↦ ⟨(h.dict.shifts.id _ _).mpr ⟨h.builtins, h.nextId⟩,
    { h with nextId := by simp only [h.nextId]; omega, builtins := Nat.le_succ_of_le h.builtins }⟩

theorem function_parallel (name : String) (params : List String) (scope : Shape)
    {fragment fragment' : Fragment} (h : fragment.Renamed ρ fragment') :
    Parallel (Pool.Tracks o ρ) (Function.Renamed ρ) (function name params scope fragment)
      (function name params scope fragment') :=
  .bind (report_parallel _ _) fun _ _ _ ↦ .bind freshId_parallel fun _ _ hid ↦
    .pure (.compiled hid (.mk _ _ h))

end Compile

section Sites

variable {site site' : Site}

theorem Site.Agrees.fail {α β : Type} (h : site.Agrees site') (line : UInt32) (cause : Cause)
    (R : α → β → Prop) :
    Parallel (Pool.Tracks o ρ) R (site.fail line cause) (site'.fail line cause) := by
  intro pool pool' htracks
  refine ⟨?_, htracks⟩
  rw [h.function]

theorem Site.Agrees.needsValue (h : site.Agrees site') (line : UInt32) (e : Expr) :
    Parallel (Pool.Tracks o ρ) (fun _ _ ↦ True) (site.needsValue line e)
      (site'.needsValue line e) := by
  unfold Site.needsValue
  split
  · exact h.fail _ _ _
  · exact .pure trivial

theorem Site.warnIfOuter_apply (site : Site) (line : UInt32) (name : String) (pool : Pool) :
    ∃ log, site.warnIfOuter line name pool = .ok () { pool with log } := by
  unfold Site.warnIfOuter
  cases Shape.nearest? name site.scopes with
  | some place => exact ⟨_, rfl⟩
  | none => exact ⟨pool.log, rfl⟩

theorem Site.warnIfOuter_parallel (site site' : Site) (line : UInt32) (name : String) :
    Parallel (Pool.Tracks o ρ) (fun _ _ ↦ True) (site.warnIfOuter line name)
      (site'.warnIfOuter line name) := by
  intro pool pool' htracks
  obtain ⟨log, h⟩ := site.warnIfOuter_apply line name pool
  obtain ⟨log', h'⟩ := site'.warnIfOuter_apply line name pool'
  rw [h, h']
  exact ⟨trivial, { htracks with }⟩

theorem Site.Agrees.readVar (h : site.Agrees site') (line : UInt32) (name : String) :
    Alongside Pool.dict (Pool.Tracks o) ρ Fragment.Renamed (site.readVar line name)
      (site'.readVar line name) := by
  unfold Site.readVar
  rw [h.slot?_eq]
  split
  · exact .pure (.single (.load _) line)
  · refine .after (Site.warnIfOuter_parallel site site' line name) fun _ _ _ ↦ ?_
    exact .map (Compile.constant_basic trivial) fun _ _ _ _ hword ↦ .single (.lookup hword) line

end Sites

theorem Literal.compile_alongside (line : UInt32) (value : Literal) :
    Alongside Pool.dict (Pool.Tracks o) ρ Fragment.Renamed (value.compile line)
      (value.compile line) := by
  unfold Literal.compile
  cases value with
  | int n =>
    simp only
    cases hword : Word.ofInt? n with
    | some word => exact .pure (.single (.const (Word.renamed_ofInt? ρ hword)) line)
    | none =>
      exact .map (Compile.constant_basic trivial) fun _ _ _ _ hword ↦ .single (.const hword) line
  | str s =>
    exact .map (Compile.constant_basic trivial) fun _ _ _ _ hword ↦ .single (.const hword) line

/-! ## The walk over the tree -/

theorem Fragment.renamed_undefined (h : ρ.entry 0 0) (line : UInt32) :
    Fragment.Renamed ρ [(.const Word.undefined, line)] [(.const Word.undefined, line)] :=
  .single (.const (.entry rfl rfl h)) line

/-- The instructions of a method call between its receiver and its arguments. -/
theorem Fragment.renamed_method {word word' : Word} (h : word.Renamed ρ word') (line : UInt32) :
    Fragment.Renamed ρ [(.dup, line), (.get word, line), (.swap, line)]
      [(.dup, line), (.get word', line), (.swap, line)] :=
  .append (.single .dup line) (.append (.single (.get h) line) (.single .swap line))

open Compile

mutual

theorem Expr.compile_alongside {o : Offsets} {ρ : Renaming} {site site' : Site}
    (h : site.Agrees site') (hundefined : ρ.entry 0 0) (start : Nat) (outer : UInt32) (e : Expr) :
    Alongside Pool.dict (Pool.Tracks o) ρ Fragment.Renamed (e.compile site start outer)
      (e.compile site' start outer) := by
  cases e with
  | block body => exact Block.compile_alongside h hundefined start _ body
  | literal value line => exact Literal.compile_alongside _ value
  | var name line => exact h.readVar _ name
  | assign name value declares line =>
    unfold Expr.compile
    simp only [h.slot?_eq]
    split
    · exact .of_parallel (h.fail _ _ _)
    · refine .after (h.needsValue _ value) fun _ _ _ ↦ ?_
      exact .map (Expr.compile_alongside h hundefined start _ value) fun _ _ _ _ hcode ↦
        hcode.append (.single (.store _) _)
  | function name params body line =>
    unfold Expr.compile
    refine .bind (Block.compileBody_alongside hundefined _ _ _ params body) (fun _ ↦ ?_)
      fun ρ₁ f f' hρ₁ hf ↦ ?_
    · refine .bind (constant_grows _) fun _ ↦ ?_
      cases name with
      | none => exact .pure _
      | some name => exact .bind (constant_grows _) fun _ ↦ .pure _
    · cases name with
      | none =>
        exact .map (constant_alongside (.function hf)) fun _ _ _ _ hword ↦
          .single (.const hword) _
      | some name =>
        refine .bind (constant_alongside (.function hf))
          (fun _ ↦ .bind (constant_grows _) fun _ ↦ .pure _) fun ρ₂ word word' _ hword ↦ ?_
        exact .map (constant_basic trivial) fun _ _ _ hρ₃ hname ↦
          .append (.single (.const (hword.mono hρ₃)) _)
            (.append (.single .dup _) (.single (.register hname) _))
  | call callee args line =>
    unfold Expr.compile
    generalize (Expr.call callee args line).lineWithin outer = place
    refine .after (h.needsValue _ callee) fun _ _ _ ↦ ?_
    refine .bind (Expr.compile_alongside h hundefined start _ callee)
      (fun _ ↦ .bind (compileArgs_grows _ _ _ args) fun _ ↦ .pure _)
      fun ρ₁ code code' hρ₁ hcode ↦ ?_
    have hundefined₁ := hρ₁.entry _ _ hundefined
    have hbase := hcode.append (Fragment.renamed_undefined hundefined₁ place)
    simp only [hbase.size_eq]
    exact .map (compileArgs_alongside h hundefined₁ _ _ args) fun _ _ _ hρ₂ hargs ↦
      ((hbase.mono hρ₂).append hargs).append (.single (.call _) _)
  | ret value line =>
    unfold Expr.compile
    refine .after (h.needsValue _ value) fun _ _ _ ↦ ?_
    exact .map (Expr.compile_alongside h hundefined start _ value) fun _ _ _ _ hcode ↦
      hcode.append (.single .ret _)
  | cond test onTrue onFalse line =>
    unfold Expr.compile
    refine .after (h.needsValue _ test) fun _ _ _ ↦ ?_
    refine .bind (Expr.compile_alongside h hundefined start _ test)
      (fun _ ↦ .bind (Block.compile_grows _ _ _ onTrue) fun _ ↦
        .bind (Block.compile_grows _ _ _ onFalse) fun _ ↦ .pure _) fun ρ₁ code code' hρ₁ hcode ↦ ?_
    have hundefined₁ := hρ₁.entry _ _ hundefined
    simp only [hcode.size_eq]
    refine .bind (Block.compile_alongside h hundefined₁ _ _ onTrue)
      (fun _ ↦ .bind (Block.compile_grows _ _ _ onFalse) fun _ ↦ .pure _)
      fun ρ₂ whenTrue whenTrue' hρ₂ hTrue ↦ ?_
    simp only [hTrue.size_eq]
    refine .map (Block.compile_alongside h (hρ₂.entry _ _ hundefined₁) _ _ onFalse)
      fun ρ₃ whenFalse whenFalse' hρ₃ hFalse ↦ ?_
    rw [hFalse.size_eq]
    exact ((((hcode.mono (hρ₂.trans hρ₃)).append (.single (.jumpIfFalse _) _)).append
      (hTrue.mono hρ₃)).append (.single (.goto _) _)).append hFalse
  | object fields line =>
    unfold Expr.compile
    refine .bind (compileFields_alongside h hundefined start _ fields)
      (fun _ ↦ .bind freshId_grows fun _ ↦ .bind (constant_grows _) fun _ ↦ .pure _)
      fun ρ₁ code code' _ hcode ↦ ?_
    refine .after freshId_parallel fun id id' hid ↦ ?_
    exact .map (constant_alongside (.shape _ hid)) fun _ _ _ hρ₂ hword ↦
      (hcode.mono hρ₂).append (.single (.new hword) _)
  | field receiver name line =>
    unfold Expr.compile
    refine .after (h.needsValue _ receiver) fun _ _ _ ↦ ?_
    refine .bind (Expr.compile_alongside h hundefined start _ receiver)
      (fun _ ↦ .bind (constant_grows _) fun _ ↦ .pure _) fun ρ₁ code code' _ hcode ↦ ?_
    exact .map (constant_basic trivial) fun _ _ _ hρ₂ hword ↦
      (hcode.mono hρ₂).append (.single (.get hword) _)
  | setField receiver name value line =>
    unfold Expr.compile
    refine .after (h.needsValue _ receiver) fun _ _ _ ↦ ?_
    refine .bind (Expr.compile_alongside h hundefined start _ receiver) (fun _ ↦ ?_)
      fun ρ₁ target target' hρ₁ htarget ↦ ?_
    · refine .bind (Site.needsValue_grows _ _ value) fun _ ↦ ?_
      exact .bind (Expr.compile_grows _ _ _ value) fun _ ↦ .bind (constant_grows _) fun _ ↦ .pure _
    · refine .after (h.needsValue _ value) fun _ _ _ ↦ ?_
      rw [htarget.size_eq]
      refine .bind (Expr.compile_alongside h (hρ₁.entry _ _ hundefined) _ _ value)
        (fun _ ↦ .bind (constant_grows _) fun _ ↦ .pure _) fun ρ₂ code code' hρ₂ hcode ↦ ?_
      exact .map (constant_basic trivial) fun _ _ _ hρ₃ hword ↦
        ((htarget.mono (hρ₂.trans hρ₃)).append (hcode.mono hρ₃)).append (.single (.put hword) _)
  | method receiver name args line =>
    unfold Expr.compile
    generalize (Expr.method receiver name args line).lineWithin outer = place
    refine .after (h.needsValue _ receiver) fun _ _ _ ↦ ?_
    refine .bind (Expr.compile_alongside h hundefined start _ receiver)
      (fun _ ↦ .bind (constant_grows _) fun _ ↦
        .bind (compileArgs_grows _ _ _ args) fun _ ↦ .pure _)
      fun ρ₁ target target' hρ₁ htarget ↦ ?_
    refine .bind (constant_basic trivial)
      (fun _ ↦ .bind (compileArgs_grows _ _ _ args) fun _ ↦ .pure _)
      fun ρ₂ word word' hρ₂ hword ↦ ?_
    have hbase := (htarget.mono hρ₂).append (Fragment.renamed_method hword place)
    simp only [hbase.size_eq]
    exact .map (compileArgs_alongside h (hρ₂.entry _ _ (hρ₁.entry _ _ hundefined)) _ _ args)
      fun _ _ _ hρ₃ hargs ↦ ((hbase.mono hρ₃).append hargs).append (.single (.call _) _)

theorem Block.compile_alongside {o : Offsets} {ρ : Renaming} {site site' : Site}
    (h : site.Agrees site') (hundefined : ρ.entry 0 0) (start : Nat) (line : UInt32)
    (body : Block) :
    Alongside Pool.dict (Pool.Tracks o) ρ Fragment.Renamed (body.compile site start line)
      (body.compile site' start line) := by
  cases body with
  | mk instrs _ => exact compileInstrs_alongside h hundefined start line instrs

theorem Block.compileBody_alongside {o : Offsets} {ρ : Renaming} (hundefined : ρ.entry 0 0)
    (outer outer' : List Shape) (name : String) (params : List String) (body : Block) :
    Alongside Pool.dict (Pool.Tracks o) ρ Function.Renamed (body.compileBody outer name params)
      (body.compileBody outer' name params) := by
  cases body with
  | mk instrs line =>
    unfold Block.compileBody
    have hsites (scope : Shape) : Site.Agrees ⟨name, scope :: outer⟩ ⟨name, scope :: outer'⟩ :=
      ⟨rfl, rfl⟩
    refine .bind (compileInstrs_alongside (hsites _) hundefined 0 line instrs)
      (fun _ ↦ function_grows _ _ _ _) fun ρ' code code' hρ hcode ↦ ?_
    exact .of_parallel (function_parallel _ _ _ (hcode.append
      (.append (Fragment.renamed_undefined (hρ.entry _ _ hundefined) line) (.single .ret line))))

theorem compileInstrs_alongside {o : Offsets} {ρ : Renaming} {site site' : Site}
    (h : site.Agrees site') (hundefined : ρ.entry 0 0) (start : Nat) (line : UInt32)
    (es : List Expr) :
    Alongside Pool.dict (Pool.Tracks o) ρ Fragment.Renamed (compileInstrs site start line es)
      (compileInstrs site' start line es) := by
  cases es with
  | nil => exact .pure .nil
  | cons e rest =>
    unfold compileInstrs
    refine .bind (Expr.compile_alongside h hundefined start line e)
      (fun _ ↦ .bind (compileInstrs_grows _ _ line rest) fun _ ↦ .pure _)
      fun ρ' code code' hρ hcode ↦ ?_
    have hpart : Fragment.Renamed ρ' (if e.isInstruction then code else code ++ [(.pop, line)])
        (if e.isInstruction then code' else code' ++ [(.pop, line)]) := by
      split
      · exact hcode
      · exact hcode.append (.single .pop line)
    simp only [hpart.size_eq]
    exact .map (compileInstrs_alongside h (hρ.entry _ _ hundefined) _ line rest)
      fun _ _ _ hρ' hrest ↦ (hpart.mono hρ').append hrest

theorem compileArgs_alongside {o : Offsets} {ρ : Renaming} {site site' : Site}
    (h : site.Agrees site') (hundefined : ρ.entry 0 0) (start : Nat) (line : UInt32)
    (es : List Expr) :
    Alongside Pool.dict (Pool.Tracks o) ρ Fragment.Renamed (compileArgs site start line es)
      (compileArgs site' start line es) := by
  cases es with
  | nil => exact .pure .nil
  | cons e rest =>
    unfold compileArgs
    refine .after (h.needsValue line e) fun _ _ _ ↦ ?_
    refine .bind (Expr.compile_alongside h hundefined start line e)
      (fun _ ↦ .bind (compileArgs_grows _ _ line rest) fun _ ↦ .pure _)
      fun ρ' code code' hρ hcode ↦ ?_
    rw [hcode.size_eq]
    exact .map (compileArgs_alongside h (hρ.entry _ _ hundefined) _ line rest)
      fun _ _ _ hρ' hrest ↦ (hcode.mono hρ').append hrest

theorem compileFields_alongside {o : Offsets} {ρ : Renaming} {site site' : Site}
    (h : site.Agrees site') (hundefined : ρ.entry 0 0) (start : Nat) (line : UInt32)
    (fields : List (String × Expr)) :
    Alongside Pool.dict (Pool.Tracks o) ρ Fragment.Renamed (compileFields site start line fields)
      (compileFields site' start line fields) := by
  cases fields with
  | nil => exact .pure .nil
  | cons field rest =>
    obtain ⟨key, e⟩ := field
    unfold compileFields
    refine .after (h.needsValue line e) fun _ _ _ ↦ ?_
    refine .bind (Expr.compile_alongside h hundefined start line e)
      (fun _ ↦ .bind (compileFields_grows _ _ line rest) fun _ ↦ .pure _)
      fun ρ' code code' hρ hcode ↦ ?_
    have hpart : Fragment.Renamed ρ'
        (if (rest.map Prod.fst).contains key then code ++ [(.pop, line)] else code)
        (if (rest.map Prod.fst).contains key then code' ++ [(.pop, line)] else code') := by
      split
      · exact hcode.append (.single .pop line)
      · exact hcode
    simp only [hpart.size_eq]
    exact .map (compileFields_alongside h (hρ.entry _ _ hundefined) _ line rest)
      fun _ _ _ hρ' hrest ↦ (hpart.mono hρ').append hrest

end

end TandemScript
