import TandemScript.Proofs.Accepted
import TandemScript.Proofs.Layout
import TandemScript.Proofs.Placement

/-!
# Compiled programs

A program together with what compiling it left behind. A machine that runs it knows the built-in
functions, the main function and the functions in the dictionary. They are told apart by their
numbers, and each but the built-in ones has emitted code.
-/

namespace TandemScript

/-- Positions of code below this bound have words of their own. -/
def codeBound : Nat := 0x80000000

/-- The code of a function, if it has some, has no position without a word. -/
def Function.IsShort (f : Function) : Prop :=
  ∀ code, f.code? = some code → code.words.size < codeBound

/-- A program that was accepted, its main function, and the pool after compiling it. -/
structure Program where
  script : Script
  main : Function
  pool : Pool
  orderly : pool.Orderly
  fresh : main.FreshFrom script.body [] "main" [] pool
  mainIsShort : main.IsShort
  isShort : ∀ index f, pool.dict.get? index = some (.function f) → f.IsShort

/-- The compiler accepts a script, and leaves a main function and a pool whose code is short. -/
structure Script.Accepted (script : Script) (config : Config) (level : Option Level)
    (main : Function) (pool : Pool) : Prop where
  compiles : script.compile (RunState.new config level).toPool = .ok main pool
  mainIsShort : main.IsShort
  isShort : ∀ index f, pool.dict.get? index = some (.function f) → f.IsShort

theorem Script.Accepted.spec {script : Script} {config : Config} {level : Option Level}
    {main : Function} {pool : Pool} (h : script.Accepted config level main pool) :
    pool.Orderly ∧ main.FreshFrom script.body [] "main" [] pool := by
  have hnew := Pool.orderly_new level config
  have hbody := Block.compileBody_spec [] "main" [] script.body hnew.numbered
  have hcompiles : script.body.compileBody [] "main" [] (RunState.new config level).toPool =
    .ok main pool := h.compiles
  unfold Ensures at hbody
  rw [hcompiles] at hbody
  exact ⟨hbody.1.orderly hnew, hbody.2⟩

/-- The check that a function of an entry has short code. -/
def Value.isShort : Value → Bool
  | .function f => (f.code?.map fun code ↦ decide (code.words.size < codeBound)).getD true
  | _ => true

theorem Function.isShort_of_check {f : Function} (h : (Value.function f).isShort = true) :
    f.IsShort := by
  intro code hcode
  unfold Value.isShort at h
  simpa [hcode] using h

/-- The check that a script is accepted. -/
def Script.isAccepted (script : Script) (level : Option Level) : Bool :=
  match script.compile (RunState.new {} level).toPool with
  | .ok main pool => (Value.function main).isShort && pool.dict.entries.all Value.isShort
  | .error _ _ => false

theorem Script.accepted_of_check {script : Script} {level : Option Level}
    (h : script.isAccepted level = true) (config : Config) :
    ∃ main pool, script.Accepted config level main pool := by
  unfold isAccepted at h
  cases hcompile : script.compile (RunState.new {} level).toPool with
  | error failure pool => simp [hcompile] at h
  | ok main pool =>
    simp only [hcompile, Bool.and_eq_true] at h
    refine ⟨main, pool, hcompile, Function.isShort_of_check h.1, fun index f hf ↦ ?_⟩
    exact Function.isShort_of_check (Array.all_eq_true'.mp h.2 _ (Array.mem_of_getElem? hf))

/-- The program of an accepted script. -/
def Script.Accepted.program {script : Script} {config : Config} {level : Option Level}
    {main : Function} {pool : Pool} (h : script.Accepted config level main pool) : Program :=
  { script, main, pool, orderly := h.spec.1, fresh := h.spec.2, mainIsShort := h.mainIsShort,
    isShort := h.isShort }

/-! ## Functions -/

theorem Builtin.all_ctorIdx (op : Builtin) : Builtin.all[op.ctorIdx]? = some op := by
  cases op <;> rfl

theorem Builtin.id_lt (op : Builtin) : op.function.id < Builtin.all.length :=
  (List.getElem?_eq_some_iff.mp op.all_ctorIdx).1

theorem Builtin.function_unique {op op' : Builtin} (h : op.function.id = op'.function.id) :
    op.function = op'.function := by
  have hop := op.all_ctorIdx
  have hidx : op.ctorIdx = op'.ctorIdx := h
  rw [hidx, op'.all_ctorIdx] at hop
  rw [Option.some.inj hop]

theorem Block.EmitsFunction.code {dict : Dictionary} {body : Block} {outer : List Shape}
    {name : String} {params : List String} {f : Function}
    (h : body.EmitsFunction dict outer name params f) :
    ∃ instrs line code, body = .mk instrs line ∧
      EmitsInstrs dict ⟨name, .ofFunction params body :: outer⟩ 0 line instrs code ∧
      f = Fragment.function (code ++ Fragment.epilogue line) f.id name params
        (.ofFunction params body) := by
  cases h with
  | mk h => exact ⟨_, _, _, rfl, h, rfl⟩

theorem Block.EmitsFunction.code?_isSome {dict : Dictionary} {body : Block} {outer : List Shape}
    {name : String} {params : List String} {f : Function}
    (h : body.EmitsFunction dict outer name params f) : ∃ code, f.code? = some code := by
  cases h with
  | mk h => exact ⟨_, rfl⟩

namespace Program

variable {p : Program} {f g : Function}

/-- A function that the program itself defines. -/
def Defines (p : Program) (f : Function) : Prop :=
  f = p.main ∨ ∃ index, p.pool.dict.get? index = some (.function f)

/-- A function that a run of the program can meet. -/
def Knows (p : Program) (f : Function) : Prop :=
  (∃ op : Builtin, f = op.function) ∨ p.Defines f

theorem Defines.knows (h : p.Defines f) : p.Knows f :=
  .inr h

theorem undefined (p : Program) : p.pool.dict.value Word.undefined = .ok .undefined :=
  Dictionary.value_eq_ok.mpr ⟨0, rfl, p.orderly.undefined⟩

theorem main_settled (p : Program) : (Value.function p.main).Settled p.pool.dict p.pool.nextId :=
  p.fresh.settled

theorem Defines.settled (h : p.Defines f) :
    (Value.function f).Settled p.pool.dict p.pool.nextId := by
  rcases h with rfl | ⟨index, hindex⟩
  · exact p.main_settled
  · exact p.orderly.entries index _ hindex

theorem Defines.isShort (h : p.Defines f) : f.IsShort := by
  rcases h with rfl | ⟨index, hindex⟩
  · exact p.mainIsShort
  · exact p.isShort index f hindex

theorem Defines.unique (h : p.Defines f) (h' : p.Defines g) (hid : f.id = g.id) : f = g := by
  rcases h with rfl | ⟨index, hindex⟩ <;> rcases h' with rfl | ⟨index', hindex'⟩
  · rfl
  · exact absurd hid (Nat.ne_of_gt (p.fresh.fresh index' g hindex'))
  · exact absurd hid (Nat.ne_of_lt (p.fresh.fresh index f hindex))
  · exact p.orderly.unique index index' f g hindex hindex' hid

/-- Functions are told apart by their numbers. -/
theorem Knows.unique (h : p.Knows f) (h' : p.Knows g) (hid : f.id = g.id) : f = g := by
  rcases h with ⟨op, rfl⟩ | h <;> rcases h' with ⟨op', rfl⟩ | h'
  · exact Builtin.function_unique hid
  · have hlt := op.id_lt
    have hle := (Defines.settled h').1
    omega
  · have hlt := op'.id_lt
    have hle := (Defines.settled h).1
    omega
  · exact Defines.unique h h' hid

theorem Knows.defines {code : Code} (h : p.Knows f) (hcode : f.code? = some code) :
    p.Defines f := by
  rcases h with ⟨op, rfl⟩ | h
  · simp [Builtin.function, Function.code?] at hcode
  · exact h

/-- A function without code is a built-in one. -/
theorem Knows.builtin (h : p.Knows f) (hcode : f.code? = none) :
    ∃ op : Builtin, f = op.function := by
  rcases h with h | h
  · exact h
  · obtain ⟨-, -, outer, params, body, hemits⟩ := Defines.settled h
    obtain ⟨code, hsome⟩ := hemits.code?_isSome
    simp [hsome] at hcode

end Program

/-! ## Scopes -/

theorem Shape.size_append (shape : Shape) (name : String) :
    (shape.append name).size = shape.size + 1 := by
  simp [append, size]

theorem Shape.size_foldl_append (params : List String) (shape : Shape) :
    (params.foldl append shape).size = shape.size + params.length := by
  induction params generalizing shape with
  | nil => rfl
  | cons param rest ih =>
    rw [List.foldl_cons, ih, size_append, List.length_cons]
    omega

theorem Shape.size_le_declareAll (names : List String) (shape : Shape) :
    shape.size ≤ (shape.declareAll names).size := by
  unfold declareAll
  induction names generalizing shape with
  | nil => exact Nat.le_refl _
  | cons name rest ih =>
    have hname : shape.size ≤ (shape.declare name).size := by
      unfold declare
      split
      · exact Nat.le_refl _
      · rw [size_append]
        omega
    exact Nat.le_trans hname (ih _)

/-- A function has a slot for its receiver and for each parameter. -/
theorem Shape.arity_le_size (params : List String) (body : Block) :
    params.length + 1 ≤ (Shape.ofFunction params body).size := by
  have hparams : (Shape.ofParams params).size = 1 + params.length :=
    size_foldl_append params (empty.declare "this")
  have hle := size_le_declareAll body.declared (Shape.ofParams params)
  unfold ofFunction
  omega

/-- The code of a function of the program is what a body and its epilogue emit. -/
structure Program.Emitted (p : Program) (f : Function) (code : Code) (outer : List Shape)
    (params : List String) (instrs : List Expr) (line : UInt32) (fragment : Fragment) : Prop where
  emits : EmitsInstrs p.pool.dict ⟨f.name, .ofFunction params (.mk instrs line) :: outer⟩ 0 line
    instrs fragment
  contains : code.Contains 0 (fragment ++ Fragment.epilogue line)
  arity : code.arity = params.length + 1
  slots : code.slots = (Shape.ofFunction params (.mk instrs line)).size

theorem Program.emitted_of_emits {p : Program} {f : Function} {body : Block} {outer : List Shape}
    {params : List String} (h : body.EmitsFunction p.pool.dict outer f.name params f) {code : Code}
    (hcode : f.code? = some code) :
    ∃ instrs line fragment, body = .mk instrs line ∧
      p.Emitted f code outer params instrs line fragment := by
  obtain ⟨instrs, line, fragment, rfl, hemits, hf⟩ := h.code
  rw [hf] at hcode
  obtain rfl := Option.some.inj hcode
  exact ⟨instrs, line, fragment, rfl, hemits, .all _ _ _, rfl, rfl⟩

theorem Program.Defines.emitted {p : Program} {f : Function} {code : Code} (h : p.Defines f)
    (hcode : f.code? = some code) :
    ∃ outer params instrs line fragment, p.Emitted f code outer params instrs line fragment := by
  obtain ⟨-, -, outer, params, body, hemits⟩ := h.settled
  obtain ⟨instrs, line, fragment, -, h⟩ := emitted_of_emits hemits hcode
  exact ⟨outer, params, instrs, line, fragment, h⟩

/-- The slots of variables that the function has itself are those of its window. -/
theorem Program.Emitted.slot_lt {p : Program} {f : Function} {code : Code} {outer : List Shape}
    {params : List String} {instrs : List Expr} {line : UInt32} {fragment : Fragment}
    (h : p.Emitted f code outer params instrs line fragment) {name : String} {slot : Nat}
    (hslot : Site.slot? ⟨f.name, .ofFunction params (.mk instrs line) :: outer⟩ name = some slot) :
    slot < code.slots := by
  rw [h.slots]
  exact Shape.lt_of_slot? hslot

/-- A compiled function has a slot for each of its parameters. -/
theorem Program.Knows.arity_le_slots {p : Program} {f : Function} {code : Code} (h : p.Knows f)
    (hcode : f.code? = some code) : code.arity ≤ code.slots := by
  obtain ⟨outer, params, instrs, line, fragment, h⟩ := (h.defines hcode).emitted hcode
  rw [h.arity, h.slots]
  exact Shape.arity_le_size params _

end TandemScript
