import Mathlib.Data.List.Nodup
import TandemScript.Proofs.Canonical

/-!
# Places of function literals

Compiling a function literal makes one function, which is pushed at one place of the code around it.
Numbers are used up from inside to outside and from left to right, so that along the code, with the
code of each function before the place where this is pushed, the numbers of the functions grow. No
two places push the same function, whatever functions they lie in.
-/

namespace TandemScript

/-! ## Pushed functions -/

/-- If the instruction pushes a constant, then one that is no function. -/
def Instruction.IsPlain (dict : Dictionary) (i : Instruction) : Prop :=
  ∀ word, i = .const word → ∃ value, dict.Denotes word value ∧ ∀ f, value ≠ .function f

theorem Instruction.IsPlain.of_not_const {dict : Dictionary} {i : Instruction}
    (h : ∀ word, i ≠ .const word) : i.IsPlain dict :=
  fun word hi ↦ absurd hi (h word)

theorem Instruction.undefined_isPlain {dict : Dictionary} (h : dict.get? 0 = some .undefined) :
    (const Word.undefined).IsPlain dict := by
  rintro _ ⟨⟩
  have hvalue : dict.value Word.undefined = .ok .undefined :=
    Dictionary.value_eq_ok.mpr ⟨0, rfl, h⟩
  exact ⟨.undefined, .entry hvalue (by simp), by simp⟩

theorem Instruction.IsPlain.mono {dict dict' : Dictionary} {i : Instruction}
    (h : i.IsPlain dict) (hgrows : dict.GrowsTo dict') : i.IsPlain dict' := by
  intro word hi
  obtain ⟨value, hdenotes, hvalue⟩ := h word hi
  exact ⟨value, hdenotes.mono hgrows, hvalue⟩

/-- A word of a function only denotes this function. -/
theorem Dictionary.Denotes.eq_function {dict : Dictionary} {word : Word} {value : Value}
    {f : Function} (h : dict.Denotes word value) (hword : dict.value word = .ok (.function f)) :
    value = .function f := by
  cases h with
  | small hsmall =>
    obtain ⟨index, hview, -⟩ := Dictionary.value_eq_ok.mp hword
    rw [(Word.view_of_ofInt? hsmall).1] at hview
    cases hview
  | entry hentry => exact Except.ok.inj (hentry.symm.trans hword)

theorem Instruction.IsPlain.ne_function {dict : Dictionary} {word : Word}
    (h : (Instruction.const word).IsPlain dict) (f : Function) :
    dict.value word ≠ .ok (.function f) := by
  intro hword
  obtain ⟨value, hdenotes, hvalue⟩ := h word rfl
  exact hvalue f (hdenotes.eq_function hword)

/-- The code of the function is a piece of code, with the epilogue behind it. -/
def Function.IsMadeOf (f : Function) (fragment : Fragment) : Prop :=
  ∃ code line, f.code? = some code ∧ code.Contains 0 (fragment ++ .epilogue line) ∧
    Fragment.size (fragment ++ .epilogue line) = code.words.size

/-- At the position the function pushes another one. -/
def Function.Pushes (dict : Dictionary) (owner : Function) (pc : Nat) (f : Function) : Prop :=
  ∃ code word, owner.code? = some code ∧ code.Holds pc (.const word) ∧
    dict.value word = .ok (.function f)

/-- A place where the function of a literal is pushed. -/
structure LiteralPlace where
  /-- The number of the function whose code it is in, unless this is the code at hand. -/
  owner? : Option Nat
  pc : Nat
  function : Function

/-- The place where the code at hand is that of a function. -/
def LiteralPlace.inside (owner : Nat) (place : LiteralPlace) : LiteralPlace :=
  { place with owner? := some (place.owner?.getD owner) }

/-- The places of the literals in a piece of code, and in the functions of these literals. The
functions have increasing numbers between two bounds. -/
inductive Fragment.Makes (dict : Dictionary) :
    Nat → Nat → Fragment → List LiteralPlace → Nat → Prop
  | nil {start low high : Nat} : low ≤ high → Makes dict start low [] [] high
  | plain {start low high : Nat} {i : Instruction} {line : UInt32} {rest : Fragment}
      {places : List LiteralPlace} :
    i.IsPlain dict → Makes dict (start + i.size) low rest places high →
    Makes dict start low ((i, line) :: rest) places high
  | literal {start low high : Nat} {word : Word} {line : UInt32} {rest inner : Fragment}
      {f : Function} {own others : List LiteralPlace} :
    dict.value word = .ok (.function f) → f.IsCompiledFor dict → f.IsMadeOf inner →
    Makes dict 0 low inner own f.id → Makes dict (start + 2) (f.id + 1) rest others high →
    Makes dict start low ((.const word, line) :: rest)
      (own.map (·.inside f.id) ++ ⟨none, start, f⟩ :: others) high

theorem Function.IsCompiledFor.mono {dict dict' : Dictionary} {f : Function}
    (h : f.IsCompiledFor dict) (hgrows : dict.GrowsTo dict') : f.IsCompiledFor dict' := by
  obtain ⟨name, params, body, enclosing, pool, pool', hnumbered, hcompile, hold⟩ := h
  exact ⟨name, params, body, enclosing, pool, pool', hnumbered, hcompile, hold.trans hgrows⟩

namespace Fragment.Makes

variable {dict dict' : Dictionary} {start low mid high : Nat} {a b fragment : Fragment}
  {places others : List LiteralPlace}

theorem le (h : Makes dict start low fragment places high) : low ≤ high := by
  induction h with
  | nil hle => exact hle
  | plain _ _ ih => exact ih
  | literal _ _ _ _ _ ihOwn ihRest => omega

theorem mono (h : Makes dict start low fragment places high) (hgrows : dict.GrowsTo dict') :
    Makes dict' start low fragment places high := by
  induction h with
  | nil hle => exact .nil hle
  | plain hplain _ ih => exact .plain (hplain.mono hgrows) ih
  | literal hword hcompiled hmade _ _ ihOwn ihRest =>
    exact .literal (hgrows.value hword) (hcompiled.mono hgrows) hmade ihOwn ihRest

/-- The bounds may be further apart. -/
theorem weaken (h : Makes dict start low fragment places high) {low' high' : Nat}
    (hlow : low' ≤ low) (hhigh : high ≤ high') : Makes dict start low' fragment places high' := by
  induction h generalizing low' high' with
  | nil hle => exact .nil (by omega)
  | plain hplain _ ih => exact .plain hplain (ih hlow hhigh)
  | literal hword hcompiled hmade _ _ ihOwn ihRest =>
    exact .literal hword hcompiled hmade (ihOwn hlow (Nat.le_refl _))
      (ihRest (Nat.le_refl _) hhigh)

theorem append (ha : Makes dict start low a places mid)
    (hb : Makes dict (start + a.size) mid b others high) :
    Makes dict start low (a ++ b) (places ++ others) high := by
  induction ha with
  | nil hle => exact hb.weaken hle (Nat.le_refl _)
  | plain hplain _ ih =>
    refine .plain hplain (ih ?_)
    rwa [Nat.add_assoc]
  | literal hword hcompiled hmade hown _ _ ih =>
    rw [List.append_assoc]
    refine .literal hword hcompiled hmade hown (ih ?_)
    rwa [Nat.add_assoc]

/-- The numbers of the functions lie between the bounds. -/
theorem bounds (h : Makes dict start low fragment places high) {place : LiteralPlace}
    (hplace : place ∈ places) : low ≤ place.function.id ∧ place.function.id < high := by
  induction h generalizing place with
  | nil => cases hplace
  | plain _ _ ih => exact ih hplace
  | literal _ _ _ hown hrest ihOwn ihRest =>
    have hle := hown.le
    have hle' := hrest.le
    rcases List.mem_append.mp hplace with hinner | hplace
    · obtain ⟨inner, hmem, rfl⟩ := List.mem_map.mp hinner
      have hbounds := ihOwn hmem
      change _ ≤ inner.function.id ∧ inner.function.id < _
      omega
    · rcases List.mem_cons.mp hplace with rfl | hother
      · exact ⟨hle, hle'⟩
      · have hbounds := ihRest hother
        omega

/-- From first to last the functions have increasing numbers. -/
theorem sorted (h : Makes dict start low fragment places high) :
    places.Pairwise fun a b ↦ a.function.id < b.function.id := by
  induction h with
  | nil => exact .nil
  | plain _ _ ih => exact ih
  | literal _ _ _ hown hrest ihOwn ihRest =>
    refine List.pairwise_append.mpr ⟨List.pairwise_map.mpr ihOwn, ?_, ?_⟩
    · exact .cons (fun other hother ↦ (hrest.bounds hother).1) ihRest
    · intro inner hinner other hother
      obtain ⟨inner, hmem, rfl⟩ := List.mem_map.mp hinner
      have hbounds := hown.bounds hmem
      change inner.function.id < _
      rcases List.mem_cons.mp hother with rfl | hother
      · exact hbounds.2
      · have hbounds' := hrest.bounds hother
        omega

/-- Every function that the code pushes has its place. -/
theorem mem_of_const (h : Makes dict start low fragment places high) {before behind : Fragment}
    {word : Word} {line : UInt32} (hsplit : fragment = before ++ (.const word, line) :: behind)
    {f : Function} (hword : dict.value word = .ok (.function f)) :
    ⟨none, start + before.size, f⟩ ∈ places := by
  induction h generalizing before with
  | nil => simp at hsplit
  | plain hplain _ ih =>
    cases before with
    | nil =>
      obtain ⟨⟨rfl, rfl⟩, rfl⟩ := List.cons.inj hsplit
      exact absurd hword (hplain.ne_function f)
    | cons head before =>
      obtain ⟨rfl, hrest⟩ := List.cons.inj hsplit
      have hmem := ih hrest
      rwa [Nat.add_assoc] at hmem
  | literal hliteral _ _ _ _ _ ih =>
    cases before with
    | nil =>
      obtain ⟨⟨rfl, rfl⟩, rfl⟩ := List.cons.inj hsplit
      obtain rfl := Value.function.inj (Except.ok.inj (hliteral.symm.trans hword))
      exact List.mem_append_right _ List.mem_cons_self
    | cons head before =>
      obtain ⟨rfl, hrest⟩ := List.cons.inj hsplit
      have hmem := ih hrest
      rw [Nat.add_assoc] at hmem
      exact List.mem_append_right _ (List.mem_cons_of_mem _ hmem)

end Fragment.Makes

/-- What a function pushes has its place in the code that it is made of. -/
theorem Function.IsMadeOf.mem_of_pushes {dict : Dictionary} {owner : Function} {fragment : Fragment}
    (h : owner.IsMadeOf fragment) (hundefined : dict.get? 0 = some .undefined) {low high : Nat}
    {places : List LiteralPlace} (hmakes : fragment.Makes dict 0 low places high) {pc : Nat}
    {f : Function} (hpushes : owner.Pushes dict pc f) : ⟨none, pc, f⟩ ∈ places := by
  obtain ⟨code, line, hcode, hcontains, hsize⟩ := h
  obtain ⟨found, word, hfound, hholds, hword⟩ := hpushes
  obtain rfl := Option.some.inj (hcode.symm.trans hfound)
  obtain ⟨before, line', behind, hsplit, rfl⟩ := (hcontains.holds_iff hsize).mp hholds
  have hwhole : Fragment.Makes dict 0 low (fragment ++ .epilogue line) places high := by
    have hepilogue : Fragment.Makes dict (0 + fragment.size) high (.epilogue line) [] high :=
      .plain (Instruction.undefined_isPlain hundefined)
        (.plain (.of_not_const (by simp)) (.nil (Nat.le_refl _)))
    simpa using hmakes.append hepilogue
  simpa using hwhole.mem_of_const hsplit hword

theorem Fragment.Makes.compiled {dict : Dictionary} {start low high : Nat} {fragment : Fragment}
    {places : List LiteralPlace} (h : Makes dict start low fragment places high)
    {place : LiteralPlace} (hplace : place ∈ places) : place.function.IsCompiledFor dict := by
  induction h generalizing place with
  | nil => cases hplace
  | plain _ _ ih => exact ih hplace
  | literal _ hcompiled _ _ _ ihOwn ihRest =>
    rcases List.mem_append.mp hplace with hinner | hplace
    · obtain ⟨inner, hmem, rfl⟩ := List.mem_map.mp hinner
      have hown := ihOwn hmem
      exact hown
    · rcases List.mem_cons.mp hplace with rfl | hother
      · exact hcompiled
      · exact ihRest hother

/-- What a function of a literal pushes has its place, too. -/
theorem Fragment.Makes.mem_of_pushes {dict : Dictionary} {start low high : Nat}
    {fragment : Fragment} {places : List LiteralPlace}
    (h : Makes dict start low fragment places high) (hundefined : dict.get? 0 = some .undefined)
    {place : LiteralPlace} (hplace : place ∈ places) {pc : Nat} {f : Function}
    (hpushes : place.function.Pushes dict pc f) : ⟨some place.function.id, pc, f⟩ ∈ places := by
  induction h generalizing place with
  | nil => cases hplace
  | plain _ _ ih => exact ih hplace hpushes
  | literal _ _ hmade hown _ ihOwn ihRest =>
    rcases List.mem_append.mp hplace with hinner | hplace
    · obtain ⟨inner, hmem, rfl⟩ := List.mem_map.mp hinner
      exact List.mem_append_left _ (List.mem_map.mpr ⟨_, ihOwn hmem hpushes, rfl⟩)
    · rcases List.mem_cons.mp hplace with rfl | hother
      · have hmem := hmade.mem_of_pushes hundefined hown hpushes
        exact List.mem_append_left _ (List.mem_map.mpr ⟨_, hmem, rfl⟩)
      · exact List.mem_append_right _ (List.mem_cons_of_mem _ (ihRest hother hpushes))

/-! ## Compiling -/

/-- The pool becomes another one while a piece of code is compiled. The functions that are new in
its dictionary are those of the literals in this code. -/
structure Pool.Lays (pool : Pool) (start : Nat) (code : Fragment) (pool' : Pool) : Prop extends
    pool.Becomes pool' where
  makes : ∃ places, code.Makes pool'.dict start pool.nextId places pool'.nextId ∧
    ∀ index f, pool'.dict.get? index = some (.function f) →
      (∃ index', pool.dict.get? index' = some (.function f)) ∨
      ∃ place ∈ places, place.function = f

/-- The pool becomes another one while a function is compiled. The functions that are new in its
dictionary are those of the literals in the code of this function. -/
structure Pool.Builds (pool : Pool) (f : Function) (pool' : Pool) : Prop extends
    pool.Becomes pool' where
  last : pool'.nextId = f.id + 1
  compiled : f.IsCompiledFor pool'.dict
  makes : ∃ inner own, f.IsMadeOf inner ∧ inner.Makes pool'.dict 0 pool.nextId own f.id ∧
    ∀ index g, pool'.dict.get? index = some (.function g) →
      (∃ index', pool.dict.get? index' = some (.function g)) ∨
      ∃ place ∈ own, place.function = g

namespace Pool.Lays

variable {pool pool' pool'' : Pool} {start : Nat} {code more : Fragment}

/-- No code was compiled, and no functions were added. -/
theorem of_becomes (h : pool.Becomes pool') (hfunctions : ∀ index f,
      pool'.dict.get? index = some (.function f) → pool.dict.get? index = some (.function f)) :
    pool.Lays start [] pool' where
  toBecomes := h
  makes := ⟨[], .nil h.nextId, fun index f hf ↦ .inl ⟨index, hfunctions index f hf⟩⟩

theorem refl (h : pool.Numbered) : pool.Lays start [] pool :=
  of_becomes (.refl h) fun _ _ hf ↦ hf

theorem append (h : pool.Lays start code pool') {next : Nat} (h' : pool'.Lays next more pool'')
    (hnext : start + code.size = next) : pool.Lays start (code ++ more) pool'' where
  toBecomes := h.toBecomes.trans h'.toBecomes
  makes := by
    obtain ⟨places, hmakes, hfunctions⟩ := h.makes
    obtain ⟨others, hmakes', hfunctions'⟩ := h'.makes
    refine ⟨places ++ others, (hmakes.mono h'.grows).append (hnext ▸ hmakes'), fun index f hf ↦ ?_⟩
    rcases hfunctions' index f hf with ⟨index', hold⟩ | ⟨place, hplace, rfl⟩
    · rcases hfunctions index' f hold with hold | ⟨place, hplace, rfl⟩
      · exact .inl hold
      · exact .inr ⟨place, List.mem_append_left _ hplace, rfl⟩
    · exact .inr ⟨place, List.mem_append_right _ hplace, rfl⟩

/-- Without code the position does not matter. -/
theorem moved (h : pool.Lays start [] pool') (next : Nat) : pool.Lays next [] pool' where
  toBecomes := h.toBecomes
  makes := by
    obtain ⟨places, hmakes, hfunctions⟩ := h.makes
    cases hmakes with
    | nil hle => exact ⟨[], .nil hle, hfunctions⟩

/-- Before the code something was compiled that left no code. -/
theorem before {next : Nat} (h : pool.Lays next [] pool') (h' : pool'.Lays start code pool'') :
    pool.Lays start code pool'' :=
  (h.moved start).append h' rfl

/-- Behind the code something was compiled that left no code. -/
theorem after {next : Nat} (h : pool.Lays start code pool') (h' : pool'.Lays next [] pool'') :
    pool.Lays start code pool'' := by
  have happend := h.append (h'.moved (start + code.size)) rfl
  rwa [List.append_nil] at happend

/-- Instructions that push no functions. -/
theorem plain (h : pool.Numbered) (hcode : ∀ entry ∈ code, entry.1.IsPlain pool.dict) :
    pool.Lays start code pool where
  toBecomes := .refl h
  makes := by
    refine ⟨[], ?_, fun index f hf ↦ .inl ⟨index, hf⟩⟩
    induction code generalizing start with
    | nil => exact .nil (Nat.le_refl _)
    | cons entry rest ih =>
      obtain ⟨hentry, hrest⟩ := List.forall_mem_cons.mp hcode
      exact .plain hentry (ih hrest)

/-- Instructions that push no functions, behind other code. -/
theorem snoc (h : pool.Lays start code pool') (more : Fragment)
    (hmore : ∀ entry ∈ more, entry.1.IsPlain pool'.dict) : pool.Lays start (code ++ more) pool' :=
  h.append (plain h.numbered hmore) rfl

end Pool.Lays

namespace Compile

theorem constant_functions (value : Value) (pool : Pool) :
    Ensures (constant value) pool
      (fun _ pool' ↦ ∀ index f, pool'.dict.get? index = some (.function f) →
        pool.dict.get? index = some (.function f) ∨ .function f = value)
      fun _ _ ↦ True := by
  unfold Ensures
  rw [constant_apply]
  rcases Dictionary.intern_spec value pool.dict with ⟨word, dict, found, hintern, h⟩ | ⟨hfull, -⟩
  · rw [hintern]
    exact fun index f hf ↦ h.added index _ hf
  · rw [hfull]
    trivial

/-- A constant that is no function. -/
theorem Yields.lays {value : Value} {pool : Pool} {P : Dictionary → Word → Prop}
    (h : Yields (constant value) pool P) (hvalue : ∀ f, value ≠ .function f) :
    Ensures (constant value) pool
      (fun word pool' ↦ pool.Lays 0 [] pool' ∧ P pool'.dict word) fun _ _ ↦ True := by
  refine (Ensures.and h (constant_functions value pool)).mono ?_ fun _ _ h ↦ h
  rintro word pool' ⟨⟨hbecomes, hP⟩, hfunctions⟩
  refine ⟨.of_becomes hbecomes fun index f hf ↦ ?_, hP⟩
  rcases hfunctions index f hf with hold | hnew
  · exact hold
  · exact absurd hnew.symm (hvalue f)

theorem name_lays {pool : Pool} (h : pool.Numbered) (s : String) :
    Ensures (name s) pool (fun _ pool' ↦ pool.Lays 0 [] pool') fun _ _ ↦ True :=
  ((name_spec h s).lays (by simp)).mono (fun _ _ h ↦ h.1) fun _ _ h ↦ h

theorem shape_lays {pool : Pool} (h : pool.Numbered) (shape : Shape) :
    Ensures (do constant (.shape (← freshId) shape)) pool
      (fun _ pool' ↦ pool.Lays 0 [] pool') fun _ _ ↦ True := by
  have hfunctions : Ensures (do constant (.shape (← freshId) shape)) pool
      (fun _ pool' ↦ ∀ index f, pool'.dict.get? index = some (.function f) →
        pool.dict.get? index = some (.function f)) fun _ _ ↦ True := by
    refine Ensures.bind_ok (x := freshId) rfl ?_
    refine (constant_functions _ _).mono (fun _ pool' hadded index f hf ↦ ?_) fun _ _ h ↦ h
    rcases hadded index f hf with hold | hnew
    · exact hold
    · cases hnew
  refine (Ensures.and (constant_freshShape h shape) hfunctions).mono ?_ fun _ _ h ↦ h
  rintro word pool' ⟨⟨hbecomes, -⟩, hkept⟩
  exact .of_becomes hbecomes hkept

end Compile

theorem Site.needsValue_lays (site : Site) (line : UInt32) (e : Expr) {pool : Pool}
    (h : pool.Numbered) :
    Ensures (site.needsValue line e) pool (fun _ pool' ↦ pool.Lays 0 [] pool')
      fun _ _ ↦ True := by
  unfold Site.needsValue
  split
  · exact .of_error rfl trivial
  · exact .pure (.refl h)

theorem Site.readVar_lays (site : Site) (start : Nat) (line : UInt32) (name : String) {pool : Pool}
    (h : pool.Numbered) :
    Ensures (site.readVar line name) pool (fun code pool' ↦ pool.Lays start code pool')
      fun _ _ ↦ True := by
  unfold Site.readVar
  cases hslot : site.slot? name with
  | some slot => exact .pure (.plain h (by simp [Instruction.IsPlain]))
  | none =>
    have hwarn : Ensures (site.warnIfOuter line name) pool
        (fun _ pool' ↦ pool.Lays 0 [] pool') fun _ _ ↦ True := by
      unfold Site.warnIfOuter
      split
      · exact .of_ok rfl (.of_becomes (.of_dict h rfl (Nat.le_refl _)) fun _ _ hf ↦ hf)
      · exact .pure (.refl h)
    refine hwarn.bind fun _ pool₁ h₁ ↦ ?_
    refine (Compile.name_lays h₁.numbered name).bind fun word pool₂ h₂ ↦ .pure ?_
    exact ((h₁.after h₂).moved start).snoc _ (by simp [Instruction.IsPlain])

theorem Literal.compile_lays (start : Nat) (line : UInt32) (value : Literal) {pool : Pool}
    (h : pool.Numbered) :
    Ensures (value.compile line) pool (fun code pool' ↦ pool.Lays start code pool')
      fun _ _ ↦ True := by
  have hconstant (value : Value) (hfunction : ∀ f, value ≠ .function f)
      (hint : ∀ n, value = .int n → Word.ofInt? n = none)
      (hspec : Compile.Yields (Compile.constant value) pool
        fun dict word ↦ dict.value word = .ok value) :
      Ensures (do return [(.const (← Compile.constant value), line)]) pool
        (fun code pool' ↦ pool.Lays start code pool') fun _ _ ↦ True := by
    refine (hspec.lays hfunction).bind ?_
    rintro word pool' ⟨hlays, hword⟩
    refine .pure ((hlays.moved start).snoc [(.const word, line)] ?_)
    rintro _ (_ | ⟨_, ⟨⟩⟩) _ ⟨⟩
    exact ⟨value, .entry hword hint, hfunction⟩
  unfold Literal.compile
  cases value with
  | int n =>
    simp only
    cases hword : Word.ofInt? n with
    | some word =>
      refine .pure (.plain h ?_)
      rintro _ (_ | ⟨_, ⟨⟩⟩) _ ⟨⟩
      exact ⟨.int n, .small hword, by simp⟩
    | none =>
      exact hconstant (.int n) (by simp) (by simp [hword])
        (Compile.constant_plain h (by simp) (by simp) (by simp))
  | str s =>
    exact hconstant (.str s) (by simp) (by simp)
      (Compile.constant_plain h (by simp) (by simp) (by simp))

/-- The function of a literal is pushed at the place of the literal. -/
theorem Pool.Builds.lays {pool pool' pool'' : Pool} {f : Function} (h : pool.Builds f pool')
    (h' : pool'.Becomes pool'') {word : Word} (hword : pool''.dict.value word = .ok (.function f))
    (hfunctions : ∀ index g, pool''.dict.get? index = some (.function g) →
      pool'.dict.get? index = some (.function g) ∨ g = f) (start : Nat) (line : UInt32) :
    pool.Lays start [(.const word, line)] pool'' where
  toBecomes := h.toBecomes.trans h'
  makes := by
    obtain ⟨inner, own, hmade, hmakes, hown⟩ := h.makes
    have hlast : f.id + 1 ≤ pool''.nextId := h.last ▸ h'.nextId
    refine ⟨_, .literal hword (h.compiled.mono h'.grows) hmade (hmakes.mono h'.grows)
      (.nil hlast), fun index g hg ↦ ?_⟩
    rcases hfunctions index g hg with hold | rfl
    · rcases hown index g hold with hold | ⟨place, hplace, rfl⟩
      · exact .inl hold
      · exact .inr ⟨_, List.mem_append_left _ (List.mem_map.mpr ⟨place, hplace, rfl⟩), rfl⟩
    · exact .inr ⟨_, List.mem_append_right _ List.mem_cons_self, rfl⟩

mutual

theorem Expr.compile_lays (site : Site) (start : Nat) (outer : UInt32) (e : Expr) {pool : Pool}
    (h : pool.Numbered) :
    Ensures (e.compile site start outer) pool (fun code pool' ↦ pool.Lays start code pool')
      fun _ _ ↦ True := by
  cases e with
  | block body => exact Block.compile_lays site start _ body h
  | literal value l => exact Literal.compile_lays start _ value h
  | var name l => exact site.readVar_lays start _ name h
  | assign name value declares l =>
    unfold Expr.compile
    simp only
    split
    · exact .of_error rfl trivial
    · refine (site.needsValue_lays _ value h).bind fun _ _ h₁ ↦ ?_
      refine (Expr.compile_lays site start _ value h₁.numbered).bind fun code _ h₂ ↦ .pure ?_
      exact (h₁.before h₂).snoc _ (by simp [Instruction.IsPlain])
  | function name params body l =>
    have hname := Block.compileBody_spec site.scopes (name.getD Function.anonymous) params body h
    refine (Ensures.and hname (Block.compileBody_builds site.scopes _ params body h)).bind ?_
    rintro f pool₁ ⟨⟨-, hfresh⟩, hbuilds⟩
    have hconstant := Compile.constant_function hbuilds.numbered hfresh.settled hfresh.fresh
    refine (Ensures.and hconstant (Compile.constant_functions _ _)).bind ?_
    rintro word pool₂ ⟨⟨hbecomes, hword⟩, hfunctions⟩
    have hlays := hbuilds.lays hbecomes hword
      (fun index g hg ↦ (hfunctions index g hg).imp_right Value.function.inj) start
    cases name with
    | none => exact Ensures.pure (hlays _)
    | some name =>
      refine (Compile.name_lays hbecomes.numbered name).bind fun nameWord pool₃ h₃ ↦ ?_
      exact Ensures.pure (((hlays _).after h₃).snoc _ (by simp [Instruction.IsPlain]))
  | call callee args l =>
    refine (site.needsValue_lays _ callee h).bind fun _ _ h₁ ↦ ?_
    refine (Expr.compile_lays site start _ callee h₁.numbered).bind fun code _ h₂ ↦ ?_
    have hcode (line : UInt32) := (h₁.before h₂).snoc [(.const Word.undefined, line)]
      (by simpa using Instruction.undefined_isPlain h₂.numbered.undefined)
    refine (compileArgs_lays site _ _ args h₂.numbered).bind fun operands _ h₃ ↦ .pure ?_
    exact ((hcode _).append h₃ rfl).snoc _ (by simp [Instruction.IsPlain])
  | ret value l =>
    refine (site.needsValue_lays _ value h).bind fun _ _ h₁ ↦ ?_
    refine (Expr.compile_lays site start _ value h₁.numbered).bind fun code _ h₂ ↦ .pure ?_
    exact (h₁.before h₂).snoc _ (by simp [Instruction.IsPlain])
  | cond test onTrue onFalse l =>
    refine (site.needsValue_lays _ test h).bind fun _ _ h₁ ↦ ?_
    refine (Expr.compile_lays site start _ test h₁.numbered).bind fun decision _ h₂ ↦ ?_
    refine (Block.compile_lays site _ _ onTrue h₂.numbered).bind fun whenTrue _ h₃ ↦ ?_
    refine (Block.compile_lays site _ _ onFalse h₃.numbered).bind fun whenFalse _ h₄ ↦ .pure ?_
    have hsize (fragment : Fragment) (i : Instruction) (line : UInt32) :
        Fragment.size (fragment ++ [(i, line)]) = fragment.size + i.size :=
      Fragment.size_append ..
    refine ((((h₁.before h₂).snoc _ (by simp [Instruction.IsPlain])).append h₃ ?_).snoc _
      (by simp [Instruction.IsPlain])).append h₄ ?_
    · rw [hsize]
      rfl
    · rw [hsize, Fragment.size_append, hsize]
      change start + (decision.size + 2 + whenTrue.size + 2) = _
      omega
  | object fields l =>
    refine (compileFields_lays site start _ fields h).bind fun code _ h₁ ↦ ?_
    rw [← bind_assoc]
    refine (Compile.shape_lays h₁.numbered _).bind fun word _ h₂ ↦ .pure ?_
    exact (h₁.after h₂).snoc _ (by simp [Instruction.IsPlain])
  | field receiver name l =>
    refine (site.needsValue_lays _ receiver h).bind fun _ _ h₁ ↦ ?_
    refine (Expr.compile_lays site start _ receiver h₁.numbered).bind fun code _ h₂ ↦ ?_
    refine (Compile.name_lays h₂.numbered name).bind fun word _ h₃ ↦ .pure ?_
    exact ((h₁.before h₂).after h₃).snoc _ (by simp [Instruction.IsPlain])
  | setField receiver name value l =>
    refine (site.needsValue_lays _ receiver h).bind fun _ _ h₁ ↦ ?_
    refine (Expr.compile_lays site start _ receiver h₁.numbered).bind fun target _ h₂ ↦ ?_
    refine (site.needsValue_lays _ value h₂.numbered).bind fun _ _ h₃ ↦ ?_
    refine (Expr.compile_lays site _ _ value h₃.numbered).bind fun code _ h₄ ↦ ?_
    refine (Compile.name_lays h₄.numbered name).bind fun word _ h₅ ↦ .pure ?_
    exact ((((h₁.before h₂).after h₃).append h₄ rfl).after h₅).snoc _
      (by simp [Instruction.IsPlain])
  | method receiver name args l =>
    refine (site.needsValue_lays _ receiver h).bind fun _ _ h₁ ↦ ?_
    refine (Expr.compile_lays site start _ receiver h₁.numbered).bind fun target _ h₂ ↦ ?_
    refine (Compile.name_lays h₂.numbered name).bind fun word _ h₃ ↦ ?_
    have hcode (line : UInt32) := ((h₁.before h₂).after h₃).snoc
      [(.dup, line), (.get word, line), (.swap, line)] (by simp [Instruction.IsPlain])
    refine (compileArgs_lays site _ _ args h₃.numbered).bind fun operands _ h₄ ↦ .pure ?_
    exact ((hcode _).append h₄ rfl).snoc _ (by simp [Instruction.IsPlain])

theorem Block.compile_lays (site : Site) (start : Nat) (line : UInt32) (body : Block)
    {pool : Pool} (h : pool.Numbered) :
    Ensures (body.compile site start line) pool (fun code pool' ↦ pool.Lays start code pool')
      fun _ _ ↦ True := by
  cases body with
  | mk instrs l => exact compileInstrs_lays site start line instrs h

theorem Block.compileBody_builds (outer : List Shape) (name : String) (params : List String)
    (body : Block) {pool : Pool} (h : pool.Numbered) :
    Ensures (body.compileBody outer name params) pool (fun f pool' ↦ pool.Builds f pool')
      fun _ _ ↦ True := by
  cases body with
  | mk instrs line =>
    have hcompile : Ensures ((Block.mk instrs line).compileBody outer name params) pool
        (fun f pool' ↦ pool.Becomes pool' ∧ pool'.nextId = f.id + 1 ∧ ∃ inner own,
          f.IsMadeOf inner ∧ inner.Makes pool'.dict 0 pool.nextId own f.id ∧
          ∀ index g, pool'.dict.get? index = some (.function g) →
            (∃ index', pool.dict.get? index' = some (.function g)) ∨
            ∃ place ∈ own, place.function = g) fun _ _ ↦ True := by
      refine (compileInstrs_lays ⟨name, _⟩ 0 line instrs h).bind fun code pool₁ h₁ ↦ ?_
      refine (Compile.function_spec h₁.numbered name params _ _).mono ?_ fun _ _ h ↦ h
      rintro f pool₂ ⟨h₂, hf, hid, hnext, hdict⟩
      obtain ⟨own, hmakes, hfunctions⟩ := h₁.makes
      refine ⟨h₁.toBecomes.trans h₂, hnext, code, own, ?_, ?_, ?_⟩
      · rw [hf]
        exact ⟨_, line, rfl, .all _ _ _, Fragment.length_words _ |>.symm⟩
      · rw [hdict, hid]
        exact hmakes
      · rw [hdict]
        exact hfunctions
    refine (Ensures.and hcompile (Ensures.result _ pool)).mono ?_ fun _ _ h ↦ h
    rintro f pool' ⟨⟨hbecomes, hnext, hmakes⟩, hresult⟩
    exact ⟨hbecomes, hnext, ⟨some name, params, _, outer, pool, pool', h, hresult, .refl _⟩, hmakes⟩

theorem compileInstrs_lays (site : Site) (start : Nat) (line : UInt32) (es : List Expr)
    {pool : Pool} (h : pool.Numbered) :
    Ensures (compileInstrs site start line es) pool (fun code pool' ↦ pool.Lays start code pool')
      fun _ _ ↦ True := by
  cases es with
  | nil => exact .pure (.refl h)
  | cons e rest =>
    refine (Expr.compile_lays site start line e h).bind fun code _ h₁ ↦ ?_
    simp only
    split
    · refine (compileInstrs_lays site _ line rest h₁.numbered).bind fun others _ h₂ ↦ .pure ?_
      exact h₁.append h₂ rfl
    · refine (compileInstrs_lays site _ line rest h₁.numbered).bind fun others _ h₂ ↦ .pure ?_
      exact (h₁.snoc _ (by simp [Instruction.IsPlain])).append h₂ rfl

theorem compileArgs_lays (site : Site) (start : Nat) (line : UInt32) (es : List Expr)
    {pool : Pool} (h : pool.Numbered) :
    Ensures (compileArgs site start line es) pool (fun code pool' ↦ pool.Lays start code pool')
      fun _ _ ↦ True := by
  cases es with
  | nil => exact .pure (.refl h)
  | cons e rest =>
    refine (site.needsValue_lays _ e h).bind fun _ _ h₁ ↦ ?_
    refine (Expr.compile_lays site start line e h₁.numbered).bind fun code _ h₂ ↦ ?_
    refine (compileArgs_lays site _ line rest h₂.numbered).bind fun others _ h₃ ↦ .pure ?_
    exact (h₁.before h₂).append h₃ rfl

theorem compileFields_lays (site : Site) (start : Nat) (line : UInt32)
    (fields : List (String × Expr)) {pool : Pool} (h : pool.Numbered) :
    Ensures (compileFields site start line fields) pool
      (fun code pool' ↦ pool.Lays start code pool') fun _ _ ↦ True := by
  cases fields with
  | nil => exact .pure (.refl h)
  | cons field rest =>
    obtain ⟨key, e⟩ := field
    refine (site.needsValue_lays _ e h).bind fun _ _ h₁ ↦ ?_
    refine (Expr.compile_lays site start line e h₁.numbered).bind fun code _ h₂ ↦ ?_
    simp only
    split
    · refine (compileFields_lays site _ line rest h₂.numbered).bind fun others _ h₃ ↦ .pure ?_
      exact ((h₁.before h₂).snoc _ (by simp [Instruction.IsPlain])).append h₃ rfl
    · refine (compileFields_lays site _ line rest h₂.numbered).bind fun others _ h₃ ↦ .pure ?_
      exact (h₁.before h₂).append h₃ rfl

end

/-! ## Programs -/

namespace Script.Accepted

variable {script : Script} {config : Config} {level : Option Level} {main : Function} {pool : Pool}

/-- The functions in the dictionary are those of the literals of the program. -/
theorem builds (h : script.Accepted config level main pool) :
    ∃ (inner : Fragment) (places : List LiteralPlace), main.IsCompiledFor pool.dict ∧
      main.IsMadeOf inner ∧ inner.Makes pool.dict 0 Builtin.all.length places main.id ∧
      ∀ index f, pool.dict.get? index = some (.function f) →
        ∃ place ∈ places, place.function = f := by
  have hnew := Pool.orderly_new level config
  have hbuilds := Block.compileBody_builds [] "main" [] script.body hnew.numbered
  unfold Ensures at hbuilds
  rw [show script.body.compileBody [] "main" [] (RunState.new config level).toPool = .ok main pool
    from h.compiles] at hbuilds
  obtain ⟨inner, places, hmade, hmakes, hfunctions⟩ := hbuilds.makes
  refine ⟨inner, places, hbuilds.compiled, hmade, hmakes, fun index f hf ↦ ?_⟩
  rcases hfunctions index f hf with ⟨index', hold⟩ | hplace
  · have hid := (hnew.entries index' _ hold).1
    have hnext := (hnew.entries index' _ hold).2.1
    exact absurd (Nat.lt_of_le_of_lt hid hnext) (Nat.lt_irrefl _)
  · exact hplace

theorem isCompiledFor (h : script.Accepted config level main pool) {f : Function}
    (hf : h.program.Defines f) : f.IsCompiledFor pool.dict := by
  obtain ⟨inner, places, hcompiled, -, hmakes, hfunctions⟩ := h.builds
  rcases hf with rfl | ⟨index, hindex⟩
  · exact hcompiled
  · obtain ⟨place, hplace, rfl⟩ := hfunctions index f hindex
    exact hmakes.compiled hplace

/-- No two places of the program push the same function. -/
theorem place_unique (h : script.Accepted config level main pool) {owner owner' f f' : Function}
    (howner : h.program.Defines owner) (howner' : h.program.Defines owner') {pc pc' : Nat}
    (hf : owner.Pushes pool.dict pc f) (hf' : owner'.Pushes pool.dict pc' f')
    (hid : f.id = f'.id) : owner = owner' ∧ pc = pc' := by
  obtain ⟨inner, places, -, hmade, hmakes, hfunctions⟩ := h.builds
  have hundefined := h.spec.1.undefined
  have hplace {owner f : Function} {pc : Nat} (howner : h.program.Defines owner)
      (hf : owner.Pushes pool.dict pc f) :
      owner = main ∧ ⟨none, pc, f⟩ ∈ places ∨ ⟨some owner.id, pc, f⟩ ∈ places := by
    rcases howner with rfl | ⟨index, hindex⟩
    · exact .inl ⟨rfl, hmade.mem_of_pushes hundefined hmakes hf⟩
    · obtain ⟨place, hplace, rfl⟩ := hfunctions index owner hindex
      exact .inr (hmakes.mem_of_pushes hundefined hplace hf)
  have hsame {place place' : LiteralPlace} (hmem : place ∈ places) (hmem' : place' ∈ places)
      (hid : place.function.id = place'.function.id) : place = place' := by
    have hnodup : (places.map fun place ↦ place.function.id).Nodup :=
      List.pairwise_map.mpr (hmakes.sorted.imp Nat.ne_of_lt)
    exact List.inj_on_of_nodup_map hnodup hmem hmem' hid
  rcases hplace howner hf with ⟨rfl, hmem⟩ | hmem <;>
    rcases hplace howner' hf' with ⟨rfl, hmem'⟩ | hmem'
  · exact ⟨rfl, congrArg LiteralPlace.pc (hsame hmem hmem' hid)⟩
  · cases congrArg LiteralPlace.owner? (hsame hmem hmem' hid)
  · cases congrArg LiteralPlace.owner? (hsame hmem hmem' hid)
  · have hplaces := hsame hmem hmem' hid
    have hids := Option.some.inj (congrArg LiteralPlace.owner? hplaces)
    exact ⟨howner.unique howner' hids, congrArg LiteralPlace.pc hplaces⟩

end Script.Accepted

end TandemScript
