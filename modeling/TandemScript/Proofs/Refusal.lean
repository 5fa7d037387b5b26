import TandemScript.Proofs.Growth
import TandemScript.Proofs.WellFormed

/-!
# Which programs are refused

The compiler refuses exactly the programs with a function, its literal nested however deeply, in
which a node without a value is used as one, or an assignment names what is no variable of that very
function. The reason that it gives is that of the first violation it comes to, and the function that
it blames is the one with that violation.
-/

namespace TandemScript

/-! ## Nodes of a function -/

/-- The nodes whose values a node uses. -/
def Expr.operands : Expr → List Expr
  | .assign _ value _ _ => [value]
  | .call callee args _ => callee :: args
  | .ret value _ => [value]
  | .cond test _ _ _ => [test]
  | .object fields _ => fields.map Prod.snd
  | .field receiver _ _ => [receiver]
  | .setField receiver _ value _ => [receiver, value]
  | .method receiver _ args _ => receiver :: args
  | .block _ | .literal .. | .var .. | .function .. => []

mutual

/-- A node and the nodes below it that are part of the same function: a function literal itself is
one of them, and the nodes of its body are not. -/
def Expr.ownNodes : Expr → List Expr
  | e@(.block body) => e :: body.ownNodes
  | e@(.literal ..) => [e]
  | e@(.var ..) => [e]
  | e@(.assign _ value _ _) => e :: value.ownNodes
  | e@(.function ..) => [e]
  | e@(.call callee args _) => e :: (callee.ownNodes ++ ownNodesOfList args)
  | e@(.ret value _) => e :: value.ownNodes
  | e@(.cond test onTrue onFalse _) =>
    e :: (test.ownNodes ++ onTrue.ownNodes ++ onFalse.ownNodes)
  | e@(.object fields _) => e :: ownNodesOfFields fields
  | e@(.field receiver _ _) => e :: receiver.ownNodes
  | e@(.setField receiver _ value _) => e :: (receiver.ownNodes ++ value.ownNodes)
  | e@(.method receiver _ args _) => e :: (receiver.ownNodes ++ ownNodesOfList args)

def Block.ownNodes : Block → List Expr
  | .mk instrs _ => ownNodesOfList instrs

def ownNodesOfList : List Expr → List Expr
  | [] => []
  | e :: rest => e.ownNodes ++ ownNodesOfList rest

def ownNodesOfFields : List (String × Expr) → List Expr
  | [] => []
  | (_, e) :: rest => e.ownNodes ++ ownNodesOfFields rest

end

mutual

/-- A node, and those in the blocks and branches below it. -/
def Expr.statements : Expr → List Expr
  | e@(.block body) => e :: body.statements
  | e@(.cond _ onTrue onFalse _) => e :: (onTrue.statements ++ onFalse.statements)
  | e => [e]

def Block.statements : Block → List Expr
  | .mk instrs _ => statementsOfList instrs

def statementsOfList : List Expr → List Expr
  | [] => []
  | e :: rest => e.statements ++ statementsOfList rest

end

/-- The name is a variable of a function: the receiver, a parameter, or what is declared somewhere
in the blocks and branches of its body. -/
def Block.Knows (params : List String) (body : Block) (name : String) : Prop :=
  name = "this" ∨ name ∈ params ∨
    ∃ value line, Expr.assign name value true line ∈ body.statements

/-- All nodes of a function that are used as values have values, and all its assignments name its
variables. -/
structure Block.IsProper (params : List String) (body : Block) : Prop where
  values : ∀ e ∈ body.ownNodes, ∀ value ∈ e.operands, value.isInstruction = false
  assigned : ∀ name value declares line,
    Expr.assign name value declares line ∈ body.ownNodes → body.Knows params name

/-- A function with this name is part of a program: its top level, or a function literal that stands
anywhere in it. -/
def Script.Has (script : Script) (function : String) (params : List String) (body : Block) : Prop :=
  function = "main" ∧ params = [] ∧ body = script.body ∨
    ∃ name line, Expr.function name params body line ∈ script.body.nodes ∧
      function = name.getD Function.anonymous

/-- All functions of the program are proper. -/
def Script.IsProper (script : Script) : Prop :=
  ∀ function params body, script.Has function params body → body.IsProper params

/-- A function is not proper, for this reason. -/
inductive Block.Breaks (params : List String) (body : Block) : Cause → Prop
  | misuse {e value : Expr} : e ∈ body.ownNodes → value ∈ e.operands →
    value.isInstruction = true → Breaks params body (.inconsistent .instructionAsValue)
  | unknown {name : String} {value : Expr} {declares : Bool} {line : UInt32} :
    .assign name value declares line ∈ body.ownNodes → ¬body.Knows params name →
    Breaks params body (.undefinedVariable name)

theorem Block.isProper_iff {params : List String} {body : Block} :
    body.IsProper params ↔ ∀ cause, ¬body.Breaks params cause := by
  constructor
  · intro h cause hbreaks
    cases hbreaks with
    | misuse he hvalue hinstruction => simp [h.values _ he _ hvalue] at hinstruction
    | unknown he hunknown => exact hunknown (h.assigned _ _ _ _ he)
  · intro h
    constructor
    · intro e he value hvalue
      exact Bool.eq_false_iff.mpr fun hinstruction ↦ h _ (.misuse he hvalue hinstruction)
    · intro name value declares line he
      exact Classical.byContradiction fun hunknown ↦ h _ (.unknown he hunknown)

/-! ## Declared variables -/

mutual

theorem Expr.mem_declared {name : String} (e : Expr) :
    name ∈ e.declared ↔ ∃ value line, .assign name value true line ∈ e.statements := by
  cases e with
  | block body =>
    simp only [Expr.declared, Expr.statements, List.mem_cons, reduceCtorEq, false_or]
    exact Block.mem_declared body
  | cond test onTrue onFalse line =>
    simp only [Expr.declared, Expr.statements, List.mem_cons, List.mem_append, reduceCtorEq,
      false_or, exists_or, onTrue.mem_declared, onFalse.mem_declared]
  | assign other value declares line =>
    cases declares with
    | true => simp [Expr.declared, Expr.statements]
    | false => simp [Expr.declared, Expr.statements]
  | _ => simp [Expr.declared, Expr.statements]

theorem Block.mem_declared {name : String} (body : Block) :
    name ∈ body.declared ↔ ∃ value line, .assign name value true line ∈ body.statements := by
  cases body with
  | mk instrs line =>
    unfold Block.declared Block.statements
    exact mem_declaredIn instrs

theorem mem_declaredIn {name : String} (es : List Expr) :
    name ∈ declaredIn es ↔ ∃ value line, .assign name value true line ∈ statementsOfList es := by
  cases es with
  | nil => simp [declaredIn, statementsOfList]
  | cons e rest =>
    simp only [declaredIn, statementsOfList, List.mem_append, exists_or, e.mem_declared,
      mem_declaredIn rest]

end

theorem Block.mem_variables {params : List String} {body : Block} {name : String} :
    name ∈ body.variables params ↔ body.Knows params name := by
  unfold Block.variables Block.Knows
  rw [List.mem_cons, List.mem_append, Block.mem_declared]

/-! ## What the violations are -/

/-- Some violation has this reason and is in a function with this name. -/
def Lists (violations : List Violation) (function : String) (cause : Cause) : Prop :=
  ∃ violation ∈ violations, violation.function = function ∧ violation.cause = cause

/-- A node of a function with some variables breaks a rule itself. -/
def Expr.Breaks (own : List String) (cause : Cause) (e : Expr) : Prop :=
  cause = .inconsistent .instructionAsValue ∧ (∃ value ∈ e.operands, value.isInstruction = true) ∨
    match e with
    | .assign name .. => name ∉ own ∧ cause = .undefinedVariable name
    | _ => False

/-- A node is a function literal, and a node of its body breaks a rule. -/
def Expr.BodyBreaks (function : String) (cause : Cause) : Expr → Prop
  | .function name params body _ =>
    function = name.getD Function.anonymous ∧
      ∃ e ∈ body.ownNodes, e.Breaks (body.variables params) cause
  | _ => False

/-- One of the nodes of a function breaks a rule, or one in a literal among some nodes does. -/
def Blames (home : String) (own : List String) (ownNodes nodes : List Expr) (function : String)
    (cause : Cause) : Prop :=
  function = home ∧ (∃ e ∈ ownNodes, e.Breaks own cause) ∨
    ∃ e ∈ nodes, e.BodyBreaks function cause

section Membership

variable {home function : String} {own : List String} {cause : Cause}

theorem lists_nil : ¬Lists [] function cause := by
  simp [Lists]

theorem lists_append {violations more : List Violation} :
    Lists (violations ++ more) function cause ↔
      Lists violations function cause ∨ Lists more function cause := by
  simp only [Lists, List.mem_append, or_and_right, exists_or]

theorem lists_misuse {line : UInt32} {e : Expr} :
    Lists (e.misuse home line) function cause ↔
      function = home ∧ cause = .inconsistent .instructionAsValue ∧ e.isInstruction = true := by
  unfold Lists Expr.misuse
  split
  · next h => simp [h, eq_comm]
  · next h => simp [h]

theorem lists_misnaming {line : UInt32} {name : String} :
    Lists (misnaming home own line name) function cause ↔
      function = home ∧ name ∉ own ∧ cause = .undefinedVariable name := by
  unfold Lists misnaming
  split
  · next h => simp [h]
  · next h => simp [h, eq_comm]

theorem blames_nil : ¬Blames home own [] [] function cause := by
  simp [Blames]

theorem blames_append {ownNodes ownNodes' nodes nodes' : List Expr} :
    Blames home own (ownNodes ++ ownNodes') (nodes ++ nodes') function cause ↔
      Blames home own ownNodes nodes function cause ∨
        Blames home own ownNodes' nodes' function cause := by
  simp only [Blames, List.mem_append, or_and_right, exists_or, and_or_left]
  exact or_or_or_comm

theorem blames_cons {e : Expr} {ownNodes nodes : List Expr} :
    Blames home own (e :: ownNodes) (e :: nodes) function cause ↔
      (function = home ∧ e.Breaks own cause ∨ e.BodyBreaks function cause) ∨
        Blames home own ownNodes nodes function cause := by
  simp only [Blames, List.mem_cons, or_and_right, exists_or, exists_eq_left, and_or_left]
  exact or_or_or_comm

-- What a node breaks itself is asked where its operands are checked; all else is in its parts.
mutual

theorem Expr.lists_violations (home : String) (own : List String) (outer : UInt32) (e : Expr) :
    Lists (e.violations home own outer) function cause ↔
      Blames home own e.ownNodes e.nodes function cause := by
  unfold Expr.violations Expr.ownNodes Expr.nodes
  cases e with
  | block body =>
    simp only [blames_cons, Expr.Breaks, Expr.BodyBreaks, Expr.operands,
      body.lists_violations home own]
    grind
  | literal value line =>
    simp only [blames_cons, Expr.Breaks, Expr.BodyBreaks, Expr.operands, lists_nil, blames_nil]
    grind
  | var name line =>
    simp only [blames_cons, Expr.Breaks, Expr.BodyBreaks, Expr.operands, lists_nil, blames_nil]
    grind
  | assign name value declares line =>
    simp only [blames_cons, Expr.Breaks, Expr.BodyBreaks, Expr.operands, lists_append,
      lists_misnaming, lists_misuse, value.lists_violations home own]
    grind
  | function name params body line =>
    have hself : ¬(Expr.function name params body line).Breaks own cause := by
      simp [Expr.Breaks, Expr.operands]
    simp only [body.lists_violations _ (body.variables params), Blames, List.mem_cons, or_and_right,
      exists_or, exists_eq_left, hself, List.not_mem_nil, or_false, and_false, false_or]
    exact Iff.rfl
  | call callee args line =>
    simp only [blames_cons, Expr.Breaks, Expr.BodyBreaks, Expr.operands, lists_append, lists_misuse,
      blames_append, callee.lists_violations home own, lists_violationsOfValues home own _ args]
    grind
  | ret value line =>
    simp only [blames_cons, Expr.Breaks, Expr.BodyBreaks, Expr.operands, lists_append, lists_misuse,
      value.lists_violations home own]
    grind
  | cond test onTrue onFalse line =>
    simp only [blames_cons, Expr.Breaks, Expr.BodyBreaks, Expr.operands, lists_append, lists_misuse,
      blames_append, test.lists_violations home own, onTrue.lists_violations home own,
      onFalse.lists_violations home own]
    grind
  | object fields line =>
    simp only [blames_cons, Expr.Breaks, Expr.BodyBreaks, Expr.operands,
      lists_violationsOfFields home own _ fields]
    grind
  | field receiver name line =>
    simp only [blames_cons, Expr.Breaks, Expr.BodyBreaks, Expr.operands, lists_append, lists_misuse,
      receiver.lists_violations home own]
    grind
  | setField receiver name value line =>
    simp only [blames_cons, Expr.Breaks, Expr.BodyBreaks, Expr.operands, lists_append, lists_misuse,
      blames_append, receiver.lists_violations home own, value.lists_violations home own]
    grind
  | method receiver name args line =>
    simp only [blames_cons, Expr.Breaks, Expr.BodyBreaks, Expr.operands, lists_append, lists_misuse,
      blames_append, receiver.lists_violations home own, lists_violationsOfValues home own _ args]
    grind

theorem Block.lists_violations (home : String) (own : List String) (line : UInt32) (body : Block) :
    Lists (body.violations home own line) function cause ↔
      Blames home own body.ownNodes body.nodes function cause := by
  cases body with
  | mk instrs _ =>
    unfold Block.violations Block.ownNodes Block.nodes
    exact lists_violationsOfInstrs home own line instrs

theorem lists_violationsOfInstrs (home : String) (own : List String) (line : UInt32)
    (es : List Expr) :
    Lists (violationsOfInstrs home own line es) function cause ↔
      Blames home own (ownNodesOfList es) (nodesOfList es) function cause := by
  cases es with
  | nil => exact iff_of_false lists_nil blames_nil
  | cons e rest =>
    unfold violationsOfInstrs ownNodesOfList nodesOfList
    rw [lists_append, blames_append, e.lists_violations home own,
      lists_violationsOfInstrs home own line rest]

theorem lists_violationsOfValues (home : String) (own : List String) (line : UInt32)
    (es : List Expr) :
    Lists (violationsOfValues home own line es) function cause ↔
      (function = home ∧ cause = .inconsistent .instructionAsValue ∧
          ∃ e ∈ es, e.isInstruction = true) ∨
        Blames home own (ownNodesOfList es) (nodesOfList es) function cause := by
  cases es with
  | nil => simp [violationsOfValues, ownNodesOfList, nodesOfList, lists_nil, blames_nil]
  | cons e rest =>
    unfold violationsOfValues ownNodesOfList nodesOfList
    simp only [lists_append, lists_misuse, blames_append, e.lists_violations home own,
      lists_violationsOfValues home own line rest]
    grind

theorem lists_violationsOfFields (home : String) (own : List String) (line : UInt32)
    (fields : List (String × Expr)) :
    Lists (violationsOfFields home own line fields) function cause ↔
      (function = home ∧ cause = .inconsistent .instructionAsValue ∧
          ∃ e ∈ fields.map Prod.snd, e.isInstruction = true) ∨
        Blames home own (ownNodesOfFields fields) (nodesOfFields fields) function cause := by
  cases fields with
  | nil => simp [violationsOfFields, ownNodesOfFields, nodesOfFields, lists_nil, blames_nil]
  | cons field rest =>
    obtain ⟨key, e⟩ := field
    unfold violationsOfFields ownNodesOfFields nodesOfFields
    simp only [lists_append, lists_misuse, blames_append, e.lists_violations home own,
      lists_violationsOfFields home own line rest]
    grind

end

end Membership

/-- The violations of a program are the reasons for which its functions are not proper. -/
theorem Script.lists_violations {script : Script} {function : String} {cause : Cause} :
    Lists script.violations function cause ↔
      ∃ params body, script.Has function params body ∧ body.Breaks params cause := by
  have hbreaks : ∀ (params : List String) (body : Block),
      (∃ e ∈ body.ownNodes, e.Breaks (body.variables params) cause) ↔
        body.Breaks params cause := by
    intro params body
    constructor
    · rintro ⟨e, he, ⟨rfl, value, hvalue, hinstruction⟩ | hname⟩
      · exact .misuse he hvalue hinstruction
      · split at hname
        · next name value declares line =>
          obtain ⟨hunknown, rfl⟩ := hname
          exact .unknown he fun h ↦ hunknown (Block.mem_variables.mpr h)
        · exact hname.elim
    · intro h
      cases h with
      | misuse he hvalue hinstruction =>
        exact ⟨_, he, .inl ⟨rfl, _, hvalue, hinstruction⟩⟩
      | unknown he hunknown =>
        exact ⟨_, he, .inr ⟨fun h ↦ hunknown (Block.mem_variables.mp h), rfl⟩⟩
  have hlists : Lists script.violations function cause ↔ _ :=
    script.body.lists_violations "main" (script.body.variables []) script.body.line
  rw [hlists, Blames, hbreaks]
  constructor
  · rintro (⟨rfl, hmain⟩ | ⟨e, he, hbody⟩)
    · exact ⟨[], script.body, .inl ⟨rfl, rfl, rfl⟩, hmain⟩
    · cases e with
      | function name params body line =>
        obtain ⟨hname, hnodes⟩ := hbody
        exact ⟨params, body, .inr ⟨name, line, he, hname⟩, (hbreaks params body).mp hnodes⟩
      | _ => exact hbody.elim
  · rintro ⟨params, body, ⟨hmain, rfl, rfl⟩ | ⟨name, line, he, hname⟩, h⟩
    · exact .inl ⟨hmain, h⟩
    · exact .inr ⟨_, he, hname, (hbreaks params body).mpr h⟩

/-- A program without violations is one of proper functions. -/
theorem Script.violations_eq_nil_iff_isProper {script : Script} :
    script.violations = [] ↔ script.IsProper := by
  constructor
  · intro hnone function params body hhas
    rw [Block.isProper_iff]
    intro cause hbreaks
    have hlists := Script.lists_violations.mpr ⟨params, body, hhas, hbreaks⟩
    rw [hnone] at hlists
    exact lists_nil hlists
  · intro hproper
    rw [List.eq_nil_iff_forall_not_mem]
    intro violation hmem
    obtain ⟨params, body, hhas, hbreaks⟩ := Script.lists_violations.mp ⟨violation, hmem, rfl, rfl⟩
    exact Block.isProper_iff.mp (hproper _ params body hhas) _ hbreaks

/-! ## What is refused -/

theorem Violation.cause_failure (violation : Violation) :
    violation.failure.cause = violation.cause := by
  unfold failure Failure.noteLine
  split <;> rfl

theorem Violation.function_failure (violation : Violation) :
    violation.failure.context.function = some violation.function := by
  unfold failure Failure.noteLine
  split <;> rfl

/-- The compiler accepts a program exactly if all its functions are proper, as long as the
dictionary does not become full. Where it refuses one, it gives the reason and the function of the
first violation, unless the dictionary is full. The violations are all the reasons for which
functions of the program are not proper. -/
theorem compile_accepts_exactly_proper (script : Script) (pool : Pool) :
    ((finalState (script.compile pool)).dict.size < indexBound →
      ((∃ main pool', script.compile pool = .ok main pool') ↔ script.IsProper)) ∧
    (∀ failure pool', script.compile pool = .error failure pool' →
      (∃ first rest, script.violations = first :: rest ∧ failure.cause = first.cause ∧
        failure.context.function = some first.function) ∨
      failure = .inconsistent .dictionaryFull ∧ indexBound ≤ pool'.dict.size) ∧
    ∀ function cause,
      (∃ violation ∈ script.violations, violation.function = function ∧ violation.cause = cause) ↔
        ∃ params body, script.Has function params body ∧ body.Breaks params cause := by
  have hreports := script.compile_reports pool
  unfold Ensures at hreports
  refine ⟨fun hroom ↦ ?_, fun failure pool' hcompile ↦ ?_, fun function cause ↦ ?_⟩
  · rw [← Script.violations_eq_nil_iff_isProper]
    cases hcompile : script.compile pool with
    | ok main pool' =>
      rw [hcompile] at hreports
      exact ⟨fun _ ↦ hreports, fun _ ↦ ⟨main, pool', rfl⟩⟩
    | error failure pool' =>
      rw [hcompile] at hreports hroom
      rcases hreports with ⟨first, rest, hfirst, -⟩ | ⟨-, hfull⟩
      · rw [hfirst]
        exact ⟨nofun, nofun⟩
      · exact absurd hroom (Nat.not_lt_of_le hfull)
  · rw [hcompile] at hreports
    rcases hreports with ⟨first, rest, hfirst, rfl⟩ | hfull
    · exact .inl ⟨first, rest, hfirst, first.cause_failure, first.function_failure⟩
    · exact .inr hfull
  · exact Script.lists_violations

/-- A function that assigns a block, which has no value, to a name that is only known outside. -/
def outerAssignment : Script :=
  .ofList [.declare "x" (.int 1), .lambda (some "f") ["y"] [.set "x" (.block .empty)]]

/-- A variable that only one branch declares is one of the function in the other branch, too. -/
def branchDeclaration : Script :=
  .ofList [.branch (.int 1) [.declare "x" (.int 1)] [.set "x" (.int 2)]]

/-- The name is refused before the value is looked at, in the function that does not know it. -/
theorem outerAssignment_refused :
    branchDeclaration.IsProper ∧ ¬outerAssignment.IsProper ∧
      ∃ failure pool', outerAssignment.compile {} = .error failure pool' ∧
        failure.cause = .undefinedVariable "x" ∧ failure.context.function = some "f" := by
  obtain ⟨hproper, -, -⟩ := compile_accepts_exactly_proper branchDeclaration {}
  obtain ⟨hrefused, hreport, -⟩ := compile_accepts_exactly_proper outerAssignment {}
  have haccepts : ∃ main pool', branchDeclaration.compile {} = .ok main pool' := ⟨_, _, rfl⟩
  have hfails : ∃ failure pool', outerAssignment.compile {} = .error failure pool' := ⟨_, _, rfl⟩
  obtain ⟨failure, pool', hcompile⟩ := hfails
  refine ⟨(hproper (by decide +kernel)).mp haccepts, fun h ↦ ?_, failure, pool', hcompile, ?_⟩
  · obtain ⟨main, pool'', hok⟩ := (hrefused (by decide +kernel)).mpr h
    rw [hcompile] at hok
    cases hok
  · have hviolations : outerAssignment.violations =
        [⟨.undefinedVariable "x", "f", 0⟩, ⟨.inconsistent .instructionAsValue, "f", 0⟩] := rfl
    rcases hreport failure pool' hcompile with ⟨first, rest, hfirst, hcause, hfunction⟩ | ⟨hfull, -⟩
    · rw [hviolations] at hfirst
      obtain ⟨rfl, -⟩ := List.cons.inj hfirst
      exact ⟨hcause, hfunction⟩
    · rw [hfull] at hcompile
      cases hcompile

end TandemScript
