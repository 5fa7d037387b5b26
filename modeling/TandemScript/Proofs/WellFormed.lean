import TandemScript.Compile
import TandemScript.Proofs.Computation
import TandemScript.Proofs.Interning
import TandemScript.Proofs.Scoping

/-!
# Well-formed trees

A tree is well formed if every node that is used as a value has one, and every assignment names a
variable of its own function. Variables of the functions around it do not count, although the
evaluator would find them. What breaks these rules is listed in the order in which the compiler
comes to it: the compiler accepts a tree without such a violation, and reports the first one where
there are some.
-/

namespace TandemScript

/-- The variables of a function: the receiver, the parameters, and what the body declares. -/
def Block.variables (params : List String) (body : Block) : List String :=
  "this" :: (params ++ body.declared)

mutual

/-- Nodes are used as values only where they have values, and assignments name some variables. A
function literal has variables of its own. -/
def Expr.isWellFormed (own : List String) : Expr → Bool
  | .block body => body.isWellFormed own
  | .literal .. => true
  | .var .. => true
  | .assign name value _ _ =>
    decide (name ∈ own) && !value.isInstruction && value.isWellFormed own
  | .function _ params body _ => body.isWellFormed (body.variables params)
  | .call callee args _ =>
    !callee.isInstruction && callee.isWellFormed own && valuesAreWellFormed own args
  | .ret value _ => !value.isInstruction && value.isWellFormed own
  | .cond test onTrue onFalse _ =>
    !test.isInstruction && test.isWellFormed own && onTrue.isWellFormed own &&
      onFalse.isWellFormed own
  | .object fields _ => fieldsAreWellFormed own fields
  | .field receiver _ _ => !receiver.isInstruction && receiver.isWellFormed own
  | .setField receiver _ value _ =>
    !receiver.isInstruction && receiver.isWellFormed own && !value.isInstruction &&
      value.isWellFormed own
  | .method receiver _ args _ =>
    !receiver.isInstruction && receiver.isWellFormed own && valuesAreWellFormed own args

def Block.isWellFormed (own : List String) : Block → Bool
  | .mk instrs _ => instrsAreWellFormed own instrs

def instrsAreWellFormed (own : List String) : List Expr → Bool
  | [] => true
  | e :: rest => e.isWellFormed own && instrsAreWellFormed own rest

/-- As for instructions, and all of them have values. -/
def valuesAreWellFormed (own : List String) : List Expr → Bool
  | [] => true
  | e :: rest => !e.isInstruction && e.isWellFormed own && valuesAreWellFormed own rest

def fieldsAreWellFormed (own : List String) : List (String × Expr) → Bool
  | [] => true
  | (_, e) :: rest => !e.isInstruction && e.isWellFormed own && fieldsAreWellFormed own rest

end

/-- All functions of the program are well formed, and so is its top level. -/
def Script.isWellFormed (script : Script) : Bool :=
  script.body.isWellFormed (script.body.variables [])

/-! ## Violations -/

/-- A rule is broken: the reason for which a tree is refused, in which function, and on which
line. -/
structure Violation where
  cause : Cause
  function : String
  line : UInt32

/-- The failure with which a violation is reported. -/
def Violation.failure (violation : Violation) : Failure :=
  (⟨violation.cause, {}⟩ : Failure).noteFunction violation.function |>.noteLine violation.line

/-- A node is used as a value, which it must have. -/
def Expr.misuse (function : String) (line : UInt32) (e : Expr) : List Violation :=
  if e.isInstruction then [⟨.inconsistent .instructionAsValue, function, line⟩] else []

/-- A name is assigned to, which must be one of some variables. -/
def misnaming (function : String) (own : List String) (line : UInt32) (name : String) :
    List Violation :=
  if name ∈ own then [] else [⟨.undefinedVariable name, function, line⟩]

mutual

/-- All violations in a node of a function with some variables, in the order of its code. That an
assignment names a variable is asked before its value is looked at. -/
def Expr.violations (function : String) (own : List String) (outer : UInt32) (e : Expr) :
    List Violation :=
  let line := e.lineWithin outer
  match e with
  | .block body => body.violations function own line
  | .literal .. => []
  | .var .. => []
  | .assign name value _ _ =>
    misnaming function own line name ++
      (value.misuse function line ++ value.violations function own line)
  | .function name params body _ =>
    body.violations (name.getD Function.anonymous) (body.variables params) body.line
  | .call callee args _ =>
    callee.misuse function line ++ (callee.violations function own line ++
      violationsOfValues function own line args)
  | .ret value _ => value.misuse function line ++ value.violations function own line
  | .cond test onTrue onFalse _ =>
    test.misuse function line ++ (test.violations function own line ++
      (onTrue.violations function own line ++ onFalse.violations function own line))
  | .object fields _ => violationsOfFields function own line fields
  | .field receiver _ _ =>
    receiver.misuse function line ++ receiver.violations function own line
  | .setField receiver _ value _ =>
    receiver.misuse function line ++ (receiver.violations function own line ++
      (value.misuse function line ++ value.violations function own line))
  | .method receiver _ args _ =>
    receiver.misuse function line ++ (receiver.violations function own line ++
      violationsOfValues function own line args)

def Block.violations (function : String) (own : List String) (line : UInt32) :
    Block → List Violation
  | .mk instrs _ => violationsOfInstrs function own line instrs

def violationsOfInstrs (function : String) (own : List String) (line : UInt32) :
    List Expr → List Violation
  | [] => []
  | e :: rest => e.violations function own line ++ violationsOfInstrs function own line rest

/-- As for instructions, and all of them are used as values. -/
def violationsOfValues (function : String) (own : List String) (line : UInt32) :
    List Expr → List Violation
  | [] => []
  | e :: rest =>
    e.misuse function line ++ (e.violations function own line ++
      violationsOfValues function own line rest)

def violationsOfFields (function : String) (own : List String) (line : UInt32) :
    List (String × Expr) → List Violation
  | [] => []
  | (_, e) :: rest =>
    e.misuse function line ++ (e.violations function own line ++
      violationsOfFields function own line rest)

end

/-- All violations in a program. -/
def Script.violations (script : Script) : List Violation :=
  script.body.violations "main" (script.body.variables []) script.body.line

theorem Expr.misuse_eq_nil (function : String) (line : UInt32) (e : Expr) :
    e.misuse function line = [] ↔ (!e.isInstruction) = true := by
  unfold misuse
  cases e.isInstruction <;> simp

theorem misnaming_eq_nil (function : String) (own : List String) (line : UInt32) (name : String) :
    misnaming function own line name = [] ↔ decide (name ∈ own) = true := by
  unfold misnaming
  split <;> simp [*]

mutual

theorem Expr.violations_eq_nil (function : String) (own : List String) (outer : UInt32)
    (e : Expr) : e.violations function own outer = [] ↔ e.isWellFormed own = true := by
  unfold Expr.violations Expr.isWellFormed
  cases e with
  | block body => exact Block.violations_eq_nil function own _ body
  | literal value line => simp
  | var name line => simp
  | function name params body line => exact Block.violations_eq_nil _ _ _ body
  | assign name value declares line =>
    simp only [List.append_eq_nil_iff, Bool.and_eq_true, Expr.misuse_eq_nil, misnaming_eq_nil,
      and_assoc, value.violations_eq_nil function own]
  | call callee args line =>
    simp only [List.append_eq_nil_iff, Bool.and_eq_true, Expr.misuse_eq_nil, and_assoc,
      callee.violations_eq_nil function own, violationsOfValues_eq_nil function own _ args]
  | ret value line =>
    simp only [List.append_eq_nil_iff, Bool.and_eq_true, Expr.misuse_eq_nil,
      value.violations_eq_nil function own]
  | cond test onTrue onFalse line =>
    simp only [List.append_eq_nil_iff, Bool.and_eq_true, Expr.misuse_eq_nil, and_assoc,
      test.violations_eq_nil function own, onTrue.violations_eq_nil function own,
      onFalse.violations_eq_nil function own]
  | object fields line => exact violationsOfFields_eq_nil function own _ fields
  | field receiver name line =>
    simp only [List.append_eq_nil_iff, Bool.and_eq_true, Expr.misuse_eq_nil,
      receiver.violations_eq_nil function own]
  | setField receiver name value line =>
    simp only [List.append_eq_nil_iff, Bool.and_eq_true, Expr.misuse_eq_nil, and_assoc,
      receiver.violations_eq_nil function own, value.violations_eq_nil function own]
  | method receiver name args line =>
    simp only [List.append_eq_nil_iff, Bool.and_eq_true, Expr.misuse_eq_nil, and_assoc,
      receiver.violations_eq_nil function own, violationsOfValues_eq_nil function own _ args]

theorem Block.violations_eq_nil (function : String) (own : List String) (line : UInt32)
    (body : Block) : body.violations function own line = [] ↔ body.isWellFormed own = true := by
  cases body with
  | mk instrs _ =>
    unfold Block.violations Block.isWellFormed
    exact violationsOfInstrs_eq_nil function own line instrs

theorem violationsOfInstrs_eq_nil (function : String) (own : List String) (line : UInt32)
    (es : List Expr) :
    violationsOfInstrs function own line es = [] ↔ instrsAreWellFormed own es = true := by
  cases es with
  | nil => simp [violationsOfInstrs, instrsAreWellFormed]
  | cons e rest =>
    simp only [violationsOfInstrs, instrsAreWellFormed, List.append_eq_nil_iff, Bool.and_eq_true,
      e.violations_eq_nil function own, violationsOfInstrs_eq_nil function own line rest]

theorem violationsOfValues_eq_nil (function : String) (own : List String) (line : UInt32)
    (es : List Expr) :
    violationsOfValues function own line es = [] ↔ valuesAreWellFormed own es = true := by
  cases es with
  | nil => simp [violationsOfValues, valuesAreWellFormed]
  | cons e rest =>
    simp only [violationsOfValues, valuesAreWellFormed, List.append_eq_nil_iff, Bool.and_eq_true,
      Expr.misuse_eq_nil, and_assoc, e.violations_eq_nil function own,
      violationsOfValues_eq_nil function own line rest]

theorem violationsOfFields_eq_nil (function : String) (own : List String) (line : UInt32)
    (fields : List (String × Expr)) :
    violationsOfFields function own line fields = [] ↔ fieldsAreWellFormed own fields = true := by
  cases fields with
  | nil => simp [violationsOfFields, fieldsAreWellFormed]
  | cons field rest =>
    obtain ⟨key, e⟩ := field
    simp only [violationsOfFields, fieldsAreWellFormed, List.append_eq_nil_iff, Bool.and_eq_true,
      Expr.misuse_eq_nil, and_assoc, e.violations_eq_nil function own,
      violationsOfFields_eq_nil function own line rest]

end

/-- Well-formed programs are those without violations. -/
theorem Script.violations_eq_nil (script : Script) :
    script.violations = [] ↔ script.isWellFormed = true :=
  Block.violations_eq_nil _ _ _ script.body

/-! ## Scopes -/

namespace Shape

theorem mem_declareAll {shape : Shape} {names : List String} {name : String} :
    name ∈ (shape.declareAll names).names ↔ name ∈ shape.names ∨ name ∈ names := by
  unfold declareAll
  induction names generalizing shape with
  | nil => simp
  | cons other rest ih =>
    rw [List.foldl_cons, ih, declare]
    split
    · next hother =>
      refine ⟨Or.imp_right (List.mem_cons_of_mem _), fun h ↦ ?_⟩
      rcases h with h | h
      · exact .inl h
      · rcases List.mem_cons.mp h with rfl | h
        · exact .inl hother
        · exact .inr h
    · simp [append, or_assoc]

theorem names_foldl_append (shape : Shape) (params : List String) :
    (params.foldl append shape).names = shape.names ++ params := by
  induction params generalizing shape with
  | nil => exact (List.append_nil _).symm
  | cons param rest ih => simp [ih, append]

/-- The scope of a function has its variables. -/
theorem mem_ofFunction {params : List String} {body : Block} {name : String} :
    name ∈ (ofFunction params body).names ↔ name ∈ body.variables params := by
  unfold ofFunction ofParams Block.variables
  rw [mem_declareAll, names_foldl_append]
  simp [declare, empty, append, or_assoc]

theorem isSome_slot?_ofFunction (params : List String) (body : Block) (name : String) :
    ((ofFunction params body).slot? name).isSome = decide (name ∈ body.variables params) :=
  lastIndexOf?_isSome.trans (decide_eq_decide.mpr mem_ofFunction)

end Shape

/-- The code belongs to a function with some variables. -/
def Site.Owns (site : Site) (own : List String) : Prop :=
  ∀ name, (site.slot? name).isSome = decide (name ∈ own)

/-! ## What the compiler reports -/

/-- If compiling succeeds there is no violation, and otherwise the first one is reported, unless the
dictionary is full. -/
def Compile.Reports {α : Type} (x : Compile α) (violations : List Violation) : Prop :=
  ∀ pool, Ensures x pool (fun _ _ ↦ violations = []) fun failure pool' ↦
    (∃ first rest, violations = first :: rest ∧ failure = first.failure) ∨
    failure = .inconsistent .dictionaryFull ∧ indexBound ≤ pool'.dict.size

namespace Compile.Reports

variable {α β : Type} {x : Compile α} {f : α → Compile β} {violations more : List Violation}

theorem of_ok (h : ∀ pool, ∃ a pool', x pool = .ok a pool') : Reports x [] := by
  intro pool
  obtain ⟨a, pool', hx⟩ := h pool
  exact .of_ok hx rfl

theorem pure (a : α) : Reports (Pure.pure a) [] :=
  of_ok fun pool ↦ ⟨a, pool, rfl⟩

/-- Where the first computation succeeds it has nothing to report. -/
theorem bind (hx : Reports x violations) (hf : ∀ a, Reports (f a) more) :
    Reports (x >>= f) (violations ++ more) := by
  intro pool
  apply Ensures.bind ((hx pool).mono (fun _ _ h ↦ h) ?_)
  · intro a pool' hnone
    rw [hnone, List.nil_append]
    exact hf a pool'
  · rintro failure pool' (⟨first, rest, hfirst, hfailure⟩ | hfull)
    · exact .inl ⟨first, rest ++ more, by rw [hfirst, List.cons_append], hfailure⟩
    · exact .inr hfull

/-- What has nothing to report may come first. -/
theorem after (hx : Reports x []) (hf : ∀ a, Reports (f a) more) : Reports (x >>= f) more :=
  bind hx hf

/-- Nothing is left to report behind the last part. -/
theorem last (hx : Reports x violations) (hf : ∀ a, Reports (f a) []) :
    Reports (x >>= f) violations := by
  have hbind := bind hx hf
  rwa [List.append_nil] at hbind

theorem fail (site : Site) (line : UInt32) (cause : Cause) :
    Reports (site.fail line cause : Compile α) (⟨cause, site.function, line⟩ :: more) :=
  fun _ ↦ .inl ⟨_, more, rfl, rfl⟩

theorem needsValue (site : Site) (line : UInt32) (e : Expr) :
    Reports (site.needsValue line e) (e.misuse site.function line) := by
  unfold Site.needsValue Expr.misuse
  split
  · exact fail site line _
  · exact pure ()

theorem constant (value : Value) : Reports (constant value) [] := by
  intro pool
  unfold Ensures Compile.constant
  rcases Dictionary.intern_spec value pool.dict with ⟨word, dict', found, hok, -⟩ | ⟨hfull, hbound⟩
  · simp only [hok]
  · simp only [hfull]
    exact .inr ⟨trivial, hbound⟩

theorem report (event : Event) : Reports (Compile.report event) [] :=
  of_ok fun _ ↦ ⟨(), _, rfl⟩

theorem freshId : Reports freshId [] :=
  of_ok fun _ ↦ ⟨_, _, rfl⟩

theorem function (name : String) (params : List String) (scope : Shape) (fragment : Fragment) :
    Reports (function name params scope fragment) [] :=
  after (report _) fun _ ↦ after freshId fun _ ↦ pure _

theorem readVar (site : Site) (line : UInt32) (name : String) :
    Reports (site.readVar line name) [] := by
  unfold Site.readVar
  split
  · exact pure _
  · refine after ?_ fun _ ↦ after (constant _) fun _ ↦ pure _
    unfold Site.warnIfOuter
    split
    · exact report _
    · exact pure ()

theorem literal (line : UInt32) (value : Literal) : Reports (value.compile line) [] := by
  unfold Literal.compile
  split
  · split
    · exact pure _
    · exact after (constant _) fun _ ↦ pure _
  · exact after (constant _) fun _ ↦ pure _

end Compile.Reports

section Reporting

open Compile

mutual

theorem Expr.compile_reports {site : Site} {own : List String} (h : site.Owns own) (start : Nat)
    (outer : UInt32) (e : Expr) :
    Reports (e.compile site start outer) (e.violations site.function own outer) := by
  unfold Expr.compile Expr.violations
  cases e with
  | block body => exact Block.compile_reports h start _ body
  | literal value line => exact .literal _ value
  | var name line => exact .readVar site _ name
  | assign name value declares line =>
    have hname := h name
    simp only
    split
    · next hslot =>
      rw [hslot] at hname
      have hunknown : name ∉ own := of_decide_eq_false hname.symm
      rw [misnaming, if_neg hunknown]
      exact .fail site _ _
    · next slot hslot =>
      rw [hslot] at hname
      have hknown : name ∈ own := of_decide_eq_true hname.symm
      rw [misnaming, if_pos hknown, List.nil_append]
      refine .bind (.needsValue site _ value) fun _ ↦ ?_
      exact .last (Expr.compile_reports h start _ value) fun _ ↦ .pure _
  | function name params body line =>
    refine .last (Block.compileBody_reports site.scopes _ params body) fun _ ↦ ?_
    refine .after (.constant _) fun _ ↦ ?_
    cases name with
    | none => exact .pure _
    | some name => exact .after (.constant _) fun _ ↦ .pure _
  | call callee args line =>
    refine .bind (.needsValue site _ callee) fun _ ↦ ?_
    refine .bind (Expr.compile_reports h start _ callee) fun _ ↦ ?_
    exact .last (compileArgs_reports h _ _ args) fun _ ↦ .pure _
  | ret value line =>
    refine .bind (.needsValue site _ value) fun _ ↦ ?_
    exact .last (Expr.compile_reports h start _ value) fun _ ↦ .pure _
  | cond test onTrue onFalse line =>
    refine .bind (.needsValue site _ test) fun _ ↦ ?_
    refine .bind (Expr.compile_reports h start _ test) fun _ ↦ ?_
    refine .bind (Block.compile_reports h _ _ onTrue) fun _ ↦ ?_
    exact .last (Block.compile_reports h _ _ onFalse) fun _ ↦ .pure _
  | object fields line =>
    refine .last (compileFields_reports h start _ fields) fun _ ↦ ?_
    exact .after .freshId fun _ ↦ .after (.constant _) fun _ ↦ .pure _
  | field receiver name line =>
    refine .bind (.needsValue site _ receiver) fun _ ↦ ?_
    refine .last (Expr.compile_reports h start _ receiver) fun _ ↦ ?_
    exact .after (.constant _) fun _ ↦ .pure _
  | setField receiver name value line =>
    refine .bind (.needsValue site _ receiver) fun _ ↦ ?_
    refine .bind (Expr.compile_reports h start _ receiver) fun _ ↦ ?_
    refine .bind (.needsValue site _ value) fun _ ↦ ?_
    refine .last (Expr.compile_reports h _ _ value) fun _ ↦ ?_
    exact .after (.constant _) fun _ ↦ .pure _
  | method receiver name args line =>
    refine .bind (.needsValue site _ receiver) fun _ ↦ ?_
    refine .bind (Expr.compile_reports h start _ receiver) fun _ ↦ ?_
    refine .after (.constant _) fun _ ↦ ?_
    exact .last (compileArgs_reports h _ _ args) fun _ ↦ .pure _

theorem Block.compile_reports {site : Site} {own : List String} (h : site.Owns own) (start : Nat)
    (line : UInt32) (body : Block) :
    Reports (body.compile site start line) (body.violations site.function own line) := by
  cases body with
  | mk instrs _ =>
    unfold Block.compile Block.violations
    exact compileInstrs_reports h start line instrs

theorem Block.compileBody_reports (outer : List Shape) (name : String) (params : List String)
    (body : Block) :
    Reports (body.compileBody outer name params)
      (body.violations name (body.variables params) body.line) := by
  cases body with
  | mk instrs line =>
    unfold Block.compileBody Block.violations
    have howns : Site.Owns ⟨name, .ofFunction params (.mk instrs line) :: outer⟩
        (Block.variables params (.mk instrs line)) :=
      Shape.isSome_slot?_ofFunction params _
    exact .last (compileInstrs_reports howns 0 line instrs) fun _ ↦ .function _ _ _ _

theorem compileInstrs_reports {site : Site} {own : List String} (h : site.Owns own) (start : Nat)
    (line : UInt32) (es : List Expr) :
    Reports (compileInstrs site start line es) (violationsOfInstrs site.function own line es) := by
  cases es with
  | nil => exact .pure _
  | cons e rest =>
    unfold compileInstrs violationsOfInstrs
    refine .bind (Expr.compile_reports h start line e) fun _ ↦ ?_
    exact .last (compileInstrs_reports h _ line rest) fun _ ↦ .pure _

theorem compileArgs_reports {site : Site} {own : List String} (h : site.Owns own) (start : Nat)
    (line : UInt32) (es : List Expr) :
    Reports (compileArgs site start line es) (violationsOfValues site.function own line es) := by
  cases es with
  | nil => exact .pure _
  | cons e rest =>
    unfold compileArgs violationsOfValues
    refine .bind (.needsValue site line e) fun _ ↦ ?_
    refine .bind (Expr.compile_reports h start line e) fun _ ↦ ?_
    exact .last (compileArgs_reports h _ line rest) fun _ ↦ .pure _

theorem compileFields_reports {site : Site} {own : List String} (h : site.Owns own) (start : Nat)
    (line : UInt32) (fields : List (String × Expr)) :
    Reports (compileFields site start line fields)
      (violationsOfFields site.function own line fields) := by
  cases fields with
  | nil => exact .pure _
  | cons field rest =>
    obtain ⟨key, e⟩ := field
    unfold compileFields violationsOfFields
    refine .bind (.needsValue site line e) fun _ ↦ ?_
    refine .bind (Expr.compile_reports h start line e) fun _ ↦ ?_
    exact .last (compileFields_reports h _ line rest) fun _ ↦ .pure _

end

theorem Script.compile_reports (script : Script) : Reports script.compile script.violations :=
  Block.compileBody_reports [] "main" [] script.body

/-- The compiler only accepts well-formed programs. -/
theorem Script.isWellFormed_of_compile {script : Script} {pool pool' : Pool} {main : Function}
    (h : script.compile pool = .ok main pool') : script.isWellFormed = true := by
  have hreports := script.compile_reports pool
  unfold Ensures at hreports
  rw [h] at hreports
  exact script.violations_eq_nil.mp hreports

end Reporting

end TandemScript
