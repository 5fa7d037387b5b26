import Mathlib.Data.List.Induction
import Std.Data.HashMap
import TandemScript.Proofs.Refusal

/-!
# Slots of variables

The receiver of a function has the first slot, the parameters have the next ones, and behind them
every other variable that the blocks and branches of the body declare has a slot, in the order of
the first declarations. A name means the last slot that carries it. Declaring the variables once
more changes nothing, and the activation of the tree evaluator binds the same names. A scope may
keep an index of its slots by name: it finds what a search of the names finds.
-/

namespace TandemScript

/-! ## Names that are new -/

/-- Those of some names that are not known yet, each where it comes first. -/
def newNames (known names : List String) : List String :=
  (names.filter (· ∉ known)).eraseDups

section NewNames

variable {known rest : List String} {name : String}

theorem newNames_cons_of_mem (h : name ∈ known) :
    newNames known (name :: rest) = newNames known rest := by
  unfold newNames
  rw [List.filter_cons_of_neg]
  simp [h]

theorem newNames_cons_of_not_mem (h : name ∉ known) :
    newNames known (name :: rest) = name :: newNames (known ++ [name]) rest := by
  have hrest : (rest.filter (· ∉ known)).filter (fun other ↦ !other == name) =
      rest.filter (· ∉ known ++ [name]) := by
    rw [List.filter_filter]
    apply List.filter_congr
    intro other _
    by_cases hother : other = name <;> simp [hother]
  unfold newNames
  rw [List.filter_cons_of_pos (by simpa using h), List.eraseDups_cons, hrest]

theorem newNames_eq_nil {names : List String} (h : ∀ name ∈ names, name ∈ known) :
    newNames known names = [] := by
  have hfilter : names.filter (· ∉ known) = [] := by simpa using h
  unfold newNames
  rw [hfilter]
  rfl

end NewNames

/-! ## Declarations -/

/-- The name that a node itself declares. -/
def Expr.declares? : Expr → Option String
  | .assign name _ true _ => some name
  | _ => none

mutual

/-- The declared names are those of the nodes in blocks and branches, in the order of the source. -/
theorem Expr.declared_eq (e : Expr) : e.declared = e.statements.filterMap Expr.declares? := by
  cases e with
  | block body => exact body.declared_eq
  | cond test onTrue onFalse line =>
    rw [Expr.declared, onTrue.declared_eq, onFalse.declared_eq, ← List.filterMap_append]
    rfl
  | assign name value declares line => cases declares <;> rfl
  | _ => rfl

theorem Block.declared_eq (body : Block) :
    body.declared = body.statements.filterMap Expr.declares? := by
  cases body with
  | mk instrs line => exact declaredIn_eq instrs

theorem declaredIn_eq (es : List Expr) :
    declaredIn es = (statementsOfList es).filterMap Expr.declares? := by
  cases es with
  | nil => rfl
  | cons e rest =>
    rw [declaredIn, statementsOfList, List.filterMap_append, e.declared_eq, declaredIn_eq rest]

end

/-! ## Scopes -/

namespace Shape

/-- Every name that the scope does not have gets one slot, behind the others. -/
theorem names_declareAll (shape : Shape) (names : List String) :
    (shape.declareAll names).names = shape.names ++ newNames shape.names names := by
  unfold declareAll
  induction names generalizing shape with
  | nil => simp [newNames]
  | cons name rest ih =>
    rw [List.foldl_cons, ih]
    by_cases hname : name ∈ shape.names
    · rw [declare, if_pos hname, newNames_cons_of_mem hname]
    · rw [declare, if_neg hname, newNames_cons_of_not_mem hname, append, List.append_assoc]
      rfl

theorem declareAll_of_subset {shape : Shape} {names : List String}
    (h : ∀ name ∈ names, name ∈ shape.names) : shape.declareAll names = shape := by
  have hnames := names_declareAll shape names
  rw [newNames_eq_nil h, List.append_nil] at hnames
  exact congrArg Shape.mk hnames

theorem names_ofParams (params : List String) : (ofParams params).names = "this" :: params :=
  names_foldl_append (empty.declare "this") params

theorem names_ofFunction (params : List String) (body : Block) :
    (ofFunction params body).names =
      "this" :: params ++ newNames ("this" :: params) body.declared := by
  unfold ofFunction
  rw [names_declareAll, names_ofParams]

theorem declareAll_ofFunction (params : List String) (body : Block) :
    (ofFunction params body).declareAll body.declared = ofFunction params body :=
  declareAll_of_subset fun _ hname ↦ mem_declareAll.mpr (.inr hname)

end Shape

theorem lastIndexOf?_eq_some_iff {α : Type} [DecidableEq α] {a : α} {l : List α} {i : Nat} :
    lastIndexOf? a l = some i ↔ l[i]? = some a ∧ ∀ j, i < j → l[j]? ≠ some a := by
  induction l using List.reverseRecOn with
  | nil => simp [lastIndexOf?]
  | append_singleton l b ih =>
    rw [lastIndexOf?_append_singleton]
    by_cases hb : b = a
    · subst hb
      rw [if_pos rfl]
      constructor
      · intro h
        obtain rfl := Option.some.inj h
        refine ⟨List.getElem?_concat_length, fun j hj ↦ ?_⟩
        have hbehind : (l ++ [b]).length ≤ j := by
          rw [List.length_append, List.length_singleton]
          exact hj
        rw [List.getElem?_eq_none hbehind]
        simp
      · rintro ⟨hi, hlast⟩
        have hle : i ≤ l.length := by
          have hlt := (List.getElem?_eq_some_iff.mp hi).1
          rw [List.length_append, List.length_singleton] at hlt
          omega
        have hge : ¬i < l.length := fun hlt ↦ hlast _ hlt List.getElem?_concat_length
        exact congrArg some (by omega)
    · rw [if_neg hb, ih]
      have hkeep (j : Nat) : (l ++ [b])[j]? = some a ↔ l[j]? = some a := by
        rw [List.getElem?_append]
        split
        · rfl
        · next hj =>
          have hnone : l[j]? = none := List.getElem?_eq_none (Nat.le_of_not_lt hj)
          cases hsub : j - l.length with
          | zero => simp [hnone, hb]
          | succ k => simp [hnone]
      simp only [hkeep, ne_eq]

/-! ## Scopes with an index -/

/-- A scope that keeps the slot of every name beside the names. -/
structure IndexedScope where
  names : Array String
  slots : Std.HashMap String Nat

namespace IndexedScope

def empty : IndexedScope :=
  ⟨#[], ∅⟩

/-- Give a name a slot of its own, which hides an earlier one. -/
def push (scope : IndexedScope) (name : String) : IndexedScope :=
  ⟨scope.names.push name, scope.slots.insert name scope.names.size⟩

/-- Give a name a slot unless the index has one. -/
def register (scope : IndexedScope) (name : String) : IndexedScope :=
  match scope.slots[name]? with
  | some _ => scope
  | none => scope.push name

/-- The scope of a function: the receiver, the parameters, and what the body declares. -/
def ofFunction (params : List String) (body : Block) : IndexedScope :=
  body.declared.foldl register (params.foldl push (empty.register "this"))

/-- The scope has the names of the shape, and its index has their slots. -/
structure Represents (scope : IndexedScope) (shape : Shape) : Prop where
  names : scope.names.toList = shape.names
  slot? : ∀ name, scope.slots[name]? = shape.slot? name

namespace Represents

variable {scope : IndexedScope} {shape : Shape}

theorem empty : IndexedScope.empty.Represents .empty where
  names := rfl
  slot? _ := Std.HashMap.getElem?_empty

theorem push (h : scope.Represents shape) (name : String) :
    (scope.push name).Represents (shape.append name) where
  names := by
    rw [IndexedScope.push, Array.toList_push, h.names]
    rfl
  slot? other := by
    have hsize : scope.names.size = shape.size := by
      rw [← Array.length_toList, h.names]
      rfl
    rw [IndexedScope.push, Std.HashMap.getElem?_insert, Shape.slot?_append, h.slot? other, hsize]
    simp only [beq_iff_eq]

theorem register (h : scope.Represents shape) (name : String) :
    (scope.register name).Represents (shape.declare name) := by
  have hfound : (scope.slots[name]?).isSome = decide (name ∈ shape.names) := by
    rw [h.slot?]
    exact lastIndexOf?_isSome
  unfold IndexedScope.register Shape.declare
  cases hslot : scope.slots[name]? with
  | some slot =>
    rw [hslot] at hfound
    rw [if_pos (of_decide_eq_true hfound.symm)]
    exact h
  | none =>
    rw [hslot] at hfound
    rw [if_neg (of_decide_eq_false hfound.symm)]
    exact h.push name

theorem foldl {step : IndexedScope → String → IndexedScope} {step' : Shape → String → Shape}
    (hstep : ∀ scope shape name, Represents scope shape →
      (step scope name).Represents (step' shape name))
    (h : scope.Represents shape) (names : List String) :
    (names.foldl step scope).Represents (names.foldl step' shape) := by
  induction names generalizing scope shape with
  | nil => exact h
  | cons name rest ih => exact ih (hstep scope shape name h)

theorem ofFunction (params : List String) (body : Block) :
    (IndexedScope.ofFunction params body).Represents (.ofFunction params body) := by
  have hreceiver : (IndexedScope.empty.register "this").Represents (Shape.empty.declare "this") :=
    empty.register "this"
  have hparams := hreceiver.foldl (fun _ _ name h ↦ h.push name) params
  exact hparams.foldl (fun _ _ name h ↦ h.register name) body.declared

end Represents

/-- Names that the index has are not registered again. -/
theorem foldl_register_of_mem {scope : IndexedScope} {shape : Shape} (h : scope.Represents shape)
    {names : List String} (hnames : ∀ name ∈ names, name ∈ shape.names) :
    names.foldl register scope = scope := by
  induction names with
  | nil => rfl
  | cons name rest ih =>
    obtain ⟨hname, hrest⟩ := List.forall_mem_cons.mp hnames
    have hsome : (shape.slot? name).isSome = true :=
      lastIndexOf?_isSome.trans (decide_eq_true hname)
    obtain ⟨slot, hslot⟩ := Option.isSome_iff_exists.mp hsome
    have hkept : scope.register name = scope := by
      unfold register
      rw [h.slot?, hslot]
    rw [List.foldl_cons, hkept]
    exact ih hrest

end IndexedScope

/-! ## Activations -/

/-- Variables that are declared are undefined unless they have a value, and all others stay as they
are. -/
theorem Bindings.get?_declareUndefined (bindings : Bindings) (names : List String) (name : String) :
    (bindings.declareUndefined names).get? name =
      (bindings.get? name).or (if name ∈ names then some .undefined else none) := by
  unfold declareUndefined
  induction names generalizing bindings with
  | nil => simp
  | cons other rest ih =>
    rw [List.foldl_cons, ih]
    by_cases hother : (bindings.get? other).isSome = true
    · rw [if_pos hother]
      by_cases hname : name = other
      · subst hname
        obtain ⟨value, hvalue⟩ := Option.isSome_iff_exists.mp hother
        simp [hvalue]
      · simp [hname]
    · rw [if_neg hother, get?_set]
      by_cases hname : other = name
      · subst hname
        simp [Option.not_isSome_iff_eq_none.mp hother]
      · simp [hname, Ne.symm hname]

/-! ## Compiled functions -/

/-- A compiled function has the parameters with the receiver, and the slots of its scope. -/
theorem Block.slots_of_compileAs {name : Option String} {params : List String} {body : Block}
    {enclosing : List Shape} {pool pool' : Pool} {f : Function}
    (h : body.compileAs name params enclosing pool = .ok f pool') :
    ∃ code, f.code? = some code ∧ code.arity = params.length + 1 ∧
      code.slots = (Shape.ofFunction params body).size := by
  have hcode : Ensures (body.compileAs name params enclosing) pool
      (fun f _ ↦ ∃ code, f.code? = some code ∧ code.arity = params.length + 1 ∧
        code.slots = (Shape.ofFunction params body).size) fun _ _ ↦ True := by
    cases body with
    | mk instrs line =>
      exact Ensures.bind (.any _ _) fun _ _ _ ↦ .of_ok rfl ⟨_, rfl, rfl, rfl⟩
  unfold Ensures at hcode
  rwa [h] at hcode

/-- The variables of a function have the slots of the receiver, of the parameters, and of the other
names that are declared in blocks and branches, in the order of the first declarations. The last
slot with a name is the one that the name means. The slots do not change as the body is gone through
again, compiled code has that many, and the tree evaluator binds what is declared and not bound. -/
theorem slots_laid_out (params : List String) (body : Block) :
    let scope := Shape.ofFunction params body
    let declared := body.statements.filterMap Expr.declares?
    scope.names = "this" :: params ++ newNames ("this" :: params) declared ∧
      (∀ name slot, scope.slot? name = some slot ↔
        scope.names[slot]? = some name ∧ ∀ later, slot < later → scope.names[later]? ≠ some name) ∧
      (∀ name other slot, scope.slot? name = some slot → scope.slot? other = some slot →
        name = other) ∧
      (IndexedScope.ofFunction params body).Represents scope ∧
      scope.declareAll body.declared = scope ∧
      body.declared.foldl IndexedScope.register (.ofFunction params body) =
        .ofFunction params body ∧
      (∀ name enclosing pool pool' f,
        body.compileAs name params enclosing pool = .ok f pool' →
          ∃ code, f.code? = some code ∧ code.arity = params.length + 1 ∧
            code.slots = scope.names.length) ∧
      ∀ (bindings : Bindings) name, (bindings.declareUndefined body.declared).get? name =
        (bindings.get? name).or (if name ∈ declared then some .undefined else none) := by
  intro scope declared
  have hdeclared : body.declared = declared := body.declared_eq
  have hrepresents := IndexedScope.Represents.ofFunction params body
  have hmem (name : String) (hname : name ∈ body.declared) : name ∈ scope.names :=
    Shape.mem_declareAll.mpr (.inr hname)
  refine ⟨?_, fun name slot ↦ lastIndexOf?_eq_some_iff, fun _ _ _ ↦ Shape.slot?_inj, hrepresents,
    Shape.declareAll_ofFunction params body,
    IndexedScope.foldl_register_of_mem hrepresents hmem, ?_, ?_⟩
  · rw [← hdeclared]
    exact Shape.names_ofFunction params body
  · intro name enclosing pool pool' f hcompile
    exact Block.slots_of_compileAs hcompile
  · intro bindings name
    rw [← hdeclared]
    exact bindings.get?_declareUndefined _ name

/-- A body that declares names of parameters, a name in both branches, and one in a function
literal in the test of a conditional. -/
def branchedDeclarations : Block :=
  .ofList [
    .branch (.lambda none [] [.declare "inner" (.int 1)])
      [.declare "x" (.int 1), .block (.ofList [.declare "a" (.int 2)])]
      [.declare "y" (.int 3), .declare "x" (.int 4)],
    .declare "this" (.int 5)]

def compiledSlots : EStateM.Result Failure Pool Function → Option Nat
  | .ok f _ => f.code?.map Code.slots
  | .error _ _ => none

/-- The last parameter hides the first one, and the receiver is hidden by the second one. -/
theorem branchedDeclarations_laid_out :
    (Shape.ofFunction ["a", "this", "a"] branchedDeclarations).names =
        ["this", "a", "this", "a", "x", "y"] ∧
      (Shape.ofFunction ["a", "this", "a"] branchedDeclarations).slot? "a" = some 3 ∧
      ∃ f pool code,
        branchedDeclarations.compileAs (some "f") ["a", "this", "a"] [] (RunState.new {}).toPool =
          .ok f pool ∧ f.code? = some code ∧ code.arity = 4 ∧ code.slots = 6 := by
  obtain ⟨hnames, hslot, -, -, -, -, hcompiled, -⟩ :=
    slots_laid_out ["a", "this", "a"] branchedDeclarations
  have hshown : (Shape.ofFunction ["a", "this", "a"] branchedDeclarations).names =
      ["this", "a", "this", "a", "x", "y"] := hnames.trans (by decide +kernel)
  have hchecked : compiledSlots (branchedDeclarations.compileAs (some "f") ["a", "this", "a"] []
      (RunState.new {}).toPool) = some 6 := by decide +kernel
  refine ⟨hshown, (hslot "a" 3).mpr ?_, ?_⟩
  · rw [hshown]
    refine ⟨rfl, fun later hlater ↦ ?_⟩
    rcases (by omega : later = 4 ∨ later = 5 ∨ 6 ≤ later) with rfl | rfl | hbehind
    · decide
    · decide
    · rw [List.getElem?_eq_none hbehind]
      decide
  · cases hcompile : branchedDeclarations.compileAs (some "f") ["a", "this", "a"] []
        (RunState.new {}).toPool with
    | error failure pool =>
      rw [hcompile] at hchecked
      cases hchecked
    | ok f pool =>
      obtain ⟨code, hcode, harity, hslots⟩ := hcompiled _ _ _ _ _ hcompile
      rw [hshown] at hslots
      exact ⟨f, pool, code, rfl, hcode, harity, hslots⟩

end TandemScript
