import TandemScript.Boundary
import TandemScript.Compile
import TandemScript.Proofs.Computation
import TandemScript.Proofs.Interning

/-!
# Dictionaries only grow

Whatever is compiled, also where this fails: the entries of the dictionary stay where they are, and
others may be added behind them.
-/

namespace TandemScript

variable {ε σ α β : Type}

/-- The state that a computation leaves, whether it has a value or fails. -/
def finalState : EStateM.Result ε σ α → σ
  | .ok _ s | .error _ s => s

/-- The computation only adds to a dictionary that is part of its state. -/
def Grows (dict : σ → Dictionary) (x : EStateM ε σ α) : Prop :=
  ∀ s, (dict s).GrowsTo (dict (finalState (x s)))

namespace Grows

variable {dict : σ → Dictionary} {x : EStateM ε σ α} {f : α → EStateM ε σ β}

theorem of_same (h : ∀ s, dict (finalState (x s)) = dict s) : Grows dict x := by
  intro s
  rw [h]
  exact .refl _

theorem pure (a : α) : Grows dict (Pure.pure a : EStateM ε σ α) :=
  .of_same fun _ ↦ rfl

theorem modify {g : σ → σ} (h : ∀ s, dict (g s) = dict s) :
    Grows dict (modify g : EStateM ε σ PUnit) :=
  .of_same h

theorem bind (hx : Grows dict x) (hf : ∀ a, Grows dict (f a)) : Grows dict (x >>= f) := by
  intro s
  have hfirst := hx s
  cases hxs : x s with
  | ok a t =>
    rw [hxs] at hfirst
    rw [bind_of_ok hxs]
    exact hfirst.trans (hf a t)
  | error e t =>
    rw [hxs] at hfirst
    rw [bind_of_error hxs]
    exact hfirst

theorem ok {a : α} {s t : σ} (h : Grows dict x) (hx : x s = .ok a t) :
    (dict s).GrowsTo (dict t) := by
  have hgrows := h s
  rwa [hx] at hgrows

theorem error {e : ε} {s t : σ} (h : Grows dict x) (hx : x s = .error e t) :
    (dict s).GrowsTo (dict t) := by
  have hgrows := h s
  rwa [hx] at hgrows

end Grows

theorem Dictionary.intern_grows (value : Value) : Grows id (intern value) := by
  intro dict
  rcases intern_spec value dict with ⟨word, dict', found, h, hinterned⟩ | ⟨h, -⟩
  · rw [h]
    exact hinterned.grows
  · rw [h]
    exact .refl _

theorem encode_grows (records : Records) (heap : Heap) (value : Value) :
    Grows id (encode records heap value) := by
  unfold encode
  split
  · split
    · exact .pure _
    · exact Dictionary.intern_grows _
  · split
    · split
      · split
        · exact .pure _
        · exact .of_same fun _ ↦ rfl
      · exact Dictionary.intern_grows _
    · exact Dictionary.intern_grows _
  · exact Dictionary.intern_grows _

/-! ## Compiling -/

namespace Compile

theorem constant_grows (value : Value) : Grows Pool.dict (constant value) := by
  intro pool
  have h := Dictionary.intern_grows value pool.dict
  unfold constant
  simp only
  cases hintern : Dictionary.intern value pool.dict with
  | ok word dict =>
    rw [hintern] at h
    exact h
  | error failure dict =>
    rw [hintern] at h
    exact h

theorem report_grows (event : Event) : Grows Pool.dict (report event) :=
  .modify fun _ ↦ rfl

theorem freshId_grows : Grows Pool.dict freshId :=
  .of_same fun _ ↦ rfl

theorem function_grows (name : String) (params : List String) (scope : Shape)
    (fragment : Fragment) : Grows Pool.dict (function name params scope fragment) :=
  .of_same fun _ ↦ rfl

end Compile

section Compiling

open Compile

variable (site : Site)

theorem Site.fail_grows {α : Type} (line : UInt32) (cause : Cause) :
    Grows Pool.dict (site.fail line cause : Compile α) :=
  .of_same fun _ ↦ rfl

theorem Site.needsValue_grows (line : UInt32) (e : Expr) :
    Grows Pool.dict (site.needsValue line e) := by
  unfold needsValue
  split
  · exact site.fail_grows _ _
  · exact .pure _

theorem Site.readVar_grows (line : UInt32) (name : String) :
    Grows Pool.dict (site.readVar line name) := by
  unfold readVar
  split
  · exact .pure _
  · refine .bind ?_ fun _ ↦ .bind (constant_grows _) fun _ ↦ .pure _
    unfold warnIfOuter
    split
    · exact report_grows _
    · exact .pure _

theorem Literal.compile_grows (line : UInt32) (value : Literal) :
    Grows Pool.dict (value.compile line) := by
  unfold Literal.compile
  split
  · split
    · exact .pure _
    · exact .bind (constant_grows _) fun _ ↦ .pure _
  · exact .bind (constant_grows _) fun _ ↦ .pure _

end Compiling

open Compile

mutual

theorem Expr.compile_grows (site : Site) (start : Nat) (outer : UInt32) (e : Expr) :
    Grows Pool.dict (e.compile site start outer) := by
  cases e with
  | block body =>
    unfold Expr.compile
    exact Block.compile_grows site start _ body
  | literal value line => exact Literal.compile_grows _ value
  | var name line => exact site.readVar_grows _ name
  | assign name value declares line =>
    unfold Expr.compile
    simp only
    split
    · exact site.fail_grows _ _
    · refine .bind (site.needsValue_grows _ value) fun _ ↦ ?_
      exact .bind (Expr.compile_grows site start _ value) fun _ ↦ .pure _
  | function name params body line =>
    unfold Expr.compile
    refine .bind (Block.compileBody_grows site.scopes _ params body) fun _ ↦ ?_
    refine .bind (constant_grows _) fun _ ↦ ?_
    cases name with
    | none => exact .pure _
    | some name => exact .bind (constant_grows _) fun _ ↦ .pure _
  | call callee args line =>
    unfold Expr.compile
    refine .bind (site.needsValue_grows _ callee) fun _ ↦ ?_
    refine .bind (Expr.compile_grows site start _ callee) fun _ ↦ ?_
    exact .bind (compileArgs_grows site _ _ args) fun _ ↦ .pure _
  | ret value line =>
    unfold Expr.compile
    refine .bind (site.needsValue_grows _ value) fun _ ↦ ?_
    exact .bind (Expr.compile_grows site start _ value) fun _ ↦ .pure _
  | cond test onTrue onFalse line =>
    unfold Expr.compile
    refine .bind (site.needsValue_grows _ test) fun _ ↦ ?_
    refine .bind (Expr.compile_grows site start _ test) fun _ ↦ ?_
    refine .bind (Block.compile_grows site _ _ onTrue) fun _ ↦ ?_
    exact .bind (Block.compile_grows site _ _ onFalse) fun _ ↦ .pure _
  | object fields line =>
    unfold Expr.compile
    refine .bind (compileFields_grows site start _ fields) fun _ ↦ ?_
    exact .bind freshId_grows fun _ ↦ .bind (constant_grows _) fun _ ↦ .pure _
  | field receiver name line =>
    unfold Expr.compile
    refine .bind (site.needsValue_grows _ receiver) fun _ ↦ ?_
    refine .bind (Expr.compile_grows site start _ receiver) fun _ ↦ ?_
    exact .bind (constant_grows _) fun _ ↦ .pure _
  | setField receiver name value line =>
    unfold Expr.compile
    refine .bind (site.needsValue_grows _ receiver) fun _ ↦ ?_
    refine .bind (Expr.compile_grows site start _ receiver) fun _ ↦ ?_
    refine .bind (site.needsValue_grows _ value) fun _ ↦ ?_
    refine .bind (Expr.compile_grows site _ _ value) fun _ ↦ ?_
    exact .bind (constant_grows _) fun _ ↦ .pure _
  | method receiver name args line =>
    unfold Expr.compile
    refine .bind (site.needsValue_grows _ receiver) fun _ ↦ ?_
    refine .bind (Expr.compile_grows site start _ receiver) fun _ ↦ ?_
    refine .bind (constant_grows _) fun _ ↦ ?_
    exact .bind (compileArgs_grows site _ _ args) fun _ ↦ .pure _

theorem Block.compile_grows (site : Site) (start : Nat) (line : UInt32) (body : Block) :
    Grows Pool.dict (body.compile site start line) := by
  cases body with
  | mk instrs _ =>
    unfold Block.compile
    exact compileInstrs_grows site start line instrs

theorem Block.compileBody_grows (outer : List Shape) (name : String) (params : List String)
    (body : Block) : Grows Pool.dict (body.compileBody outer name params) := by
  cases body with
  | mk instrs line =>
    unfold Block.compileBody
    exact .bind (compileInstrs_grows _ 0 line instrs) fun _ ↦ function_grows _ _ _ _

theorem compileInstrs_grows (site : Site) (start : Nat) (line : UInt32) (es : List Expr) :
    Grows Pool.dict (compileInstrs site start line es) := by
  cases es with
  | nil => exact .pure _
  | cons e rest =>
    unfold compileInstrs
    refine .bind (Expr.compile_grows site start line e) fun _ ↦ ?_
    exact .bind (compileInstrs_grows site _ line rest) fun _ ↦ .pure _

theorem compileArgs_grows (site : Site) (start : Nat) (line : UInt32) (es : List Expr) :
    Grows Pool.dict (compileArgs site start line es) := by
  cases es with
  | nil => exact .pure _
  | cons e rest =>
    unfold compileArgs
    refine .bind (site.needsValue_grows line e) fun _ ↦ ?_
    refine .bind (Expr.compile_grows site start line e) fun _ ↦ ?_
    exact .bind (compileArgs_grows site _ line rest) fun _ ↦ .pure _

theorem compileFields_grows (site : Site) (start : Nat) (line : UInt32)
    (fields : List (String × Expr)) :
    Grows Pool.dict (compileFields site start line fields) := by
  cases fields with
  | nil => exact .pure _
  | cons field rest =>
    obtain ⟨key, e⟩ := field
    unfold compileFields
    refine .bind (site.needsValue_grows line e) fun _ ↦ ?_
    refine .bind (Expr.compile_grows site start line e) fun _ ↦ ?_
    exact .bind (compileFields_grows site _ line rest) fun _ ↦ .pure _

end

end TandemScript
