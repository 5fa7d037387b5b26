import TandemScript.Proofs.Preparation
import TandemScript.Proofs.Slots

/-!
# Compiling in another context

A function is compiled alike wherever it stands. What the dictionary holds already decides at which
entries the constants of its code are found, and the scopes around it decide what is warned about;
but both compilations fail for the same reason, or they give the same code up to the entries of
equal constants. As before, both are compared with compiling the function on its own, for a
dictionary that holds nothing.
-/

namespace TandemScript

variable {pool pool' : Pool} {ρ : Renaming}

/-- A pool whose dictionary was filled by registering values. Numbers that are still to be given to
functions and shapes are not those of any entry. -/
structure Pool.IsPrepared (pool : Pool) : Prop where
  nextId : Builtin.all.length ≤ pool.nextId
  registered : pool.dict.Registered
  functions : ∀ f, .function f ∈ pool.dict.entries →
    (∃ op : Builtin, f = op.function) ∨ Builtin.all.length ≤ f.id ∧ f.id < pool.nextId
  shapes : ∀ id shape, .shape id shape ∈ pool.dict.entries → id < pool.nextId

/-- Two functions of the same name, with code that only differs in the entries of constants. -/
inductive Function.CompiledAlike (ρ : Renaming) : Function → Function → Prop
  | mk {f f' : Function} {code code' : Code} : f.name = f'.name → f.code? = some code →
    f'.code? = some code' → code.words.size = code'.words.size → code.lines = code'.lines →
    code.arity = code'.arity → code.slots = code'.slots → code.Renamed ρ code' →
    CompiledAlike ρ f f'

/-! ## Alongside an empty dictionary -/

/-- The records among some values have numbers below a bound. -/
theorem exists_recordBound (values : List Value) :
    ∃ bound, ∀ id, .record id ∈ values → id < bound := by
  induction values with
  | nil => exact ⟨0, fun _ h ↦ by cases h⟩
  | cons value rest ih =>
    obtain ⟨bound, hbound⟩ := ih
    cases value with
    | record first =>
      refine ⟨max bound (first + 1), fun id hid ↦ ?_⟩
      rcases List.mem_cons.mp hid with heq | hrest
      · rw [Value.record.inj heq]
        exact Nat.le_max_right bound (first + 1)
      · exact Nat.lt_of_lt_of_le (hbound id hrest) (Nat.le_max_left ..)
    | _ => exact ⟨bound, fun id hid ↦ hbound id (by simpa using hid)⟩

/-- The values of a prepared pool are from before what is numbered next. -/
theorem Pool.IsPrepared.exists_offsets (h : pool.IsPrepared) :
    ∃ o : Offsets, pool.nextId = Builtin.all.length + o.ids ∧
      ∀ value ∈ pool.dict.entries, value.IsForeign o := by
  obtain ⟨bound, hbound⟩ := exists_recordBound pool.dict.entries.toList
  obtain ⟨ids, hids⟩ := Nat.exists_eq_add_of_le h.nextId
  refine ⟨⟨ids, bound, 0⟩, hids, fun value hvalue ↦ ?_⟩
  cases value with
  | function f =>
    rcases h.functions f hvalue with hbuiltin | ⟨hle, hlt⟩
    · exact .inl hbuiltin
    · exact .inr ⟨hle, Nat.lt_of_lt_of_eq hlt hids⟩
  | shape id shape => exact Nat.lt_of_lt_of_eq (h.shapes id shape hvalue) hids
  | record id => exact hbound id hvalue.val
  | _ => trivial

theorem Pool.IsPrepared.tracks (h : pool.IsPrepared) :
    ∃ o : Offsets, (RunState.new {}).toPool.Tracks o (.shift o) pool := by
  obtain ⟨o, hnext, hknown⟩ := h.exists_offsets
  refine ⟨o, Dictionary.new_tracks h.registered hknown, ?_, Nat.le_refl _⟩
  exact hnext

/-- In any scopes and for any dictionary, a function is compiled alongside compiling it on its own
for an empty dictionary. -/
theorem Pool.IsPrepared.alongside (h : pool.IsPrepared) (name : Option String)
    (params : List String) (body : Block) (enclosing : List Shape)
    (hroom : (finalState (body.compileAs name params enclosing pool)).dict.size < indexBound) :
    ∃ ρ : Renaming, ρ.IsOneToOne ∧
      SameEnd (fun alone pool ↦ alone.dict.Renamed ρ pool.dict) (Function.Renamed ρ)
        (body.compileAs name params [] (RunState.new {}).toPool)
        (body.compileAs name params enclosing pool) := by
  obtain ⟨o, htracks⟩ := h.tracks
  obtain ⟨ρ, -, hend⟩ := Block.compileBody_alongside htracks.dict.undefined [] enclosing
    (name.getD Function.anonymous) params body _ _ htracks hroom
  refine ⟨ρ, ?_, hend.mono (fun _ _ h ↦ h.dict.renamed) fun _ _ h ↦ h⟩
  rcases hend.cases with ⟨-, -, alone, pool, -, -, -, htracks⟩ | ⟨-, alone, pool, -, -, htracks⟩
  · exact htracks.dict.isOneToOne
  · exact htracks.dict.isOneToOne

theorem Code.Renamed.size_eq {code code' : Code} (h : code.Renamed ρ code') :
    code.words.size = code'.words.size := by
  cases h with
  | mk arity slots h =>
    simp only [List.size_toArray, Fragment.length_words, h.size_eq]

theorem Function.Renamed.compiledAlike {f f' : Function} (h : f.Renamed ρ f') {code : Code}
    (hcode : f.code? = some code) : f.CompiledAlike ρ f' := by
  cases h with
  | builtin op => cases hcode
  | compiled _ hrenamed =>
    exact .mk rfl rfl rfl hrenamed.size_eq hrenamed.lines_eq hrenamed.arity_eq hrenamed.slots_eq
      hrenamed

/-- Whatever the dictionary holds and whatever scopes a function stands in, compiling it fails with
the same failure, or gives the same code up to the entries of its constants. The constants at these
entries are the same, and where they are functions, this goes for their code again. -/
theorem compileAs_alike (h : pool.IsPrepared) (h' : pool'.IsPrepared) (name : Option String)
    (params : List String) (body : Block) (enclosing enclosing' : List Shape)
    (hroom : (finalState (body.compileAs name params enclosing pool)).dict.size < indexBound)
    (hroom' : (finalState (body.compileAs name params enclosing' pool')).dict.size < indexBound) :
    ∃ ρ : Renaming, ρ.IsOneToOne ∧
      SameEnd (fun pool pool' ↦ pool.dict.Renamed ρ pool'.dict) (Function.CompiledAlike ρ)
        (body.compileAs name params enclosing pool)
        (body.compileAs name params enclosing' pool') := by
  obtain ⟨ρ₁, hρ₁, hend₁⟩ := h.alongside name params body enclosing hroom
  obtain ⟨ρ₂, hρ₂, hend₂⟩ := h'.alongside name params body enclosing' hroom'
  have hjoin : SameEnd (fun pool pool' ↦ pool.dict.Renamed (ρ₁.join ρ₂) pool'.dict)
      (Function.Renamed (ρ₁.join ρ₂)) (body.compileAs name params enclosing pool)
      (body.compileAs name params enclosing' pool') :=
    hend₁.join hend₂ (fun _ _ _ h h' ↦ h.join h') fun _ _ _ h h' ↦ h.join h'
  refine ⟨ρ₁.join ρ₂, hρ₁.join hρ₂, ?_⟩
  rcases hjoin.cases with ⟨f, f', left, right, hf, hf', hsame, hdict⟩ |
    ⟨failure, left, right, hf, hf', hdict⟩
  · obtain ⟨code, hcode, -⟩ := Block.slots_of_compileAs hf
    rw [hf, hf']
    exact ⟨hsame.compiledAlike hcode, hdict⟩
  · rw [hf, hf']
    exact ⟨rfl, hdict⟩

/-- The name of the function that was compiled. -/
def compiledName : EStateM.Result Failure Pool Function → Option String
  | .ok f _ => some f.name
  | .error _ _ => none

theorem registeredConstants_pool : registeredConstants.toPool.IsPrepared where
  nextId := registeredConstants_prepared.nextId
  registered := registeredConstants_prepared.registered
  functions := by simp [registeredConstants]
  shapes := by simp [registeredConstants]

theorem registeredIdentities_pool : registeredIdentities.toPool.IsPrepared where
  nextId := registeredIdentities_prepared.nextId
  registered := registeredIdentities_prepared.registered
  functions := by simp [registeredIdentities, labelFunction, Builtin.all]
  shapes := by simp [registeredIdentities]

/-- A body with a function literal, an object and constants of all kinds is compiled on its own, and
inside a function with a variable that it reads as a global name. -/
theorem labelledObject_compiled_alike : ∃ (ρ : Renaming) (f f' : Function) (pool pool' : Pool),
    labelledObject.body.compileAs (some "show") ["n"] [] registeredConstants.toPool = .ok f pool ∧
      labelledObject.body.compileAs (some "show") ["n"] [⟨["this", "print"]⟩]
        registeredIdentities.toPool = .ok f' pool' ∧
      ρ.IsOneToOne ∧ f.CompiledAlike ρ f' ∧ pool.dict.Renamed ρ pool'.dict := by
  obtain ⟨ρ, hρ, hend⟩ := compileAs_alike registeredConstants_pool registeredIdentities_pool
    (some "show") ["n"] labelledObject.body [] [⟨["this", "print"]⟩] (by decide +kernel)
    (by decide +kernel)
  have hcompiled : compiledName (labelledObject.body.compileAs (some "show") ["n"] []
      registeredConstants.toPool) = some "show" := by
    decide +kernel
  rcases hend.cases with ⟨f, f', pool, pool', hf, hf', halike, hdict⟩ | ⟨failure, pool, _, hf, -⟩
  · exact ⟨ρ, f, f', pool, pool', hf, hf', hρ, halike, hdict⟩
  · rw [hf] at hcompiled
    cases hcompiled

end TandemScript
