import TandemScript.Proofs.Capacity
import TandemScript.Proofs.Scoping
import TandemScript.Proofs.Snapshots

/-!
# Object literals

A key may be given more than once in an object literal. Its initializers are evaluated all the
same, each once and in order, and the object keeps the last value of each key, at the place of the
last one. The tree evaluator picks the values out of a list; a machine drops the others from the
stack as soon as it has them, so that the instruction that makes the object finds those that are
kept side by side.
-/

namespace TandemScript

/-! ## Keys -/

/-- The key stands at the position, and nowhere behind it. -/
def IsLastAt (keys : List String) (i : Nat) (key : String) : Prop :=
  keys[i]? = some key ∧ key ∉ keys.drop (i + 1)

/-- The elements whose keys are not given again. -/
def kept {α : Type} (keys : List String) (xs : List α) : List α :=
  (xs.zip (keepLast keys)).filterMap fun (x, keep) ↦ if keep then some x else none

section Keys

variable {α : Type} {keys : List String} {key first : String} {x : α} {xs : List α} {i : Nat}

theorem isLastAt_zero : IsLastAt (first :: keys) 0 key ↔ first = key ∧ first ∉ keys := by
  unfold IsLastAt
  constructor
  · rintro ⟨hfirst, hnot⟩
    obtain rfl := Option.some.inj hfirst
    exact ⟨rfl, hnot⟩
  · rintro ⟨rfl, hnot⟩
    exact ⟨rfl, hnot⟩

theorem isLastAt_succ : IsLastAt (first :: keys) (i + 1) key ↔ IsLastAt keys i key :=
  Iff.rfl

theorem kept_nil (xs : List α) : kept [] xs = [] := by
  simp [kept, keepLast]

theorem kept_dropped (h : keys.contains key = true) :
    kept (key :: keys) (x :: xs) = kept keys xs := by
  simp only [kept, keepLast, List.zip_cons_cons, List.filterMap_cons, h]
  rfl

theorem kept_kept (h : keys.contains key = false) :
    kept (key :: keys) (x :: xs) = x :: kept keys xs := by
  simp only [kept, keepLast, List.zip_cons_cons, List.filterMap_cons, h]
  rfl

theorem length_keepLast (keys : List String) : (keepLast keys).length = keys.length := by
  induction keys with
  | nil => rfl
  | cons key keys ih => rw [keepLast, List.length_cons, List.length_cons, ih]

/-- The marked positions are those of last occurrences. -/
theorem keepLast_eq_true_iff : (keepLast keys)[i]? = some true ↔ ∃ key, IsLastAt keys i key := by
  induction keys generalizing i with
  | nil => simp [keepLast, IsLastAt]
  | cons first rest ih =>
    cases i with
    | zero => simp [keepLast, isLastAt_zero]
    | succ i =>
      simp only [keepLast, List.getElem?_cons_succ, isLastAt_succ]
      exact ih

theorem keepLast_eq_false (hi : keys[i]? = some key) (h : ¬IsLastAt keys i key) :
    (keepLast keys)[i]? = some false := by
  have hlt : i < (keepLast keys).length := by
    rw [length_keepLast]
    exact (List.getElem?_eq_some_iff.mp hi).1
  rw [List.getElem?_eq_getElem hlt, Option.some.injEq]
  refine Bool.eq_false_iff.mpr fun hmark ↦ h ?_
  obtain ⟨found, hlast⟩ := keepLast_eq_true_iff.mp (List.getElem?_eq_some_iff.mpr ⟨hlt, hmark⟩)
  rwa [Option.some.inj (hi.symm.trans hlast.1)]

theorem lastOccurrences_eq_kept (keys : List String) : lastOccurrences keys = kept keys keys := by
  induction keys with
  | nil => rfl
  | cons key keys ih =>
    rw [lastOccurrences]
    split
    · next h => rw [kept_dropped h, ih]
    · next h => rw [kept_kept (Bool.eq_false_iff.mpr h), ih]

theorem mem_lastOccurrences : key ∈ lastOccurrences keys ↔ key ∈ keys := by
  induction keys with
  | nil => rfl
  | cons first rest ih =>
    rw [lastOccurrences]
    split
    · next h =>
      have hmem : first ∈ rest := List.contains_iff_mem.mp h
      rw [ih, List.mem_cons]
      exact ⟨.inr, fun h ↦ h.elim (fun heq ↦ heq ▸ hmem) id⟩
    · rw [List.mem_cons, List.mem_cons, ih]

theorem nodup_lastOccurrences (keys : List String) : (lastOccurrences keys).Nodup := by
  induction keys with
  | nil => exact List.nodup_nil
  | cons first rest ih =>
    rw [lastOccurrences]
    split
    · exact ih
    · next h =>
      refine List.nodup_cons.mpr ⟨fun hmem ↦ h ?_, ih⟩
      exact List.contains_iff_mem.mpr (mem_lastOccurrences.mp hmem)

/-- Where nothing is repeated, the last position of an element is its only one. -/
theorem lastIndexOf?_of_nodup {names : List String} (h : names.Nodup)
    (hi : names[i]? = some key) : lastIndexOf? key names = some i := by
  have hmem : key ∈ names := List.mem_of_getElem? hi
  obtain ⟨j, hj⟩ := Option.isSome_iff_exists.mp (lastIndexOf?_isSome.trans (decide_eq_true hmem))
  have hlt := (List.getElem?_eq_some_iff.mp hi).1
  rw [hj, (List.getElem?_inj hlt h).mp (hi.trans (lastIndexOf?_getElem? hj).symm)]

/-- An element whose key is not given again is kept at the slot of its key. -/
theorem kept_getElem? (h : IsLastAt keys i key) (hlength : xs.length = keys.length) :
    ∃ slot, (Shape.ofKeys keys).slot? key = some slot ∧ (kept keys xs)[slot]? = xs[i]? := by
  have hslot : ∃ slot : Nat, (kept keys keys)[slot]? = some key ∧
      (kept keys xs)[slot]? = xs[i]? := by
    induction keys generalizing i xs with
    | nil => simp [IsLastAt] at h
    | cons first rest ih =>
      obtain ⟨x, xs, rfl⟩ := List.exists_cons_of_length_eq_add_one hlength
      have hlength := Nat.succ.inj hlength
      cases i with
      | zero =>
        obtain ⟨rfl, hnot⟩ := isLastAt_zero.mp h
        have hnew : rest.contains first = false :=
          Bool.eq_false_iff.mpr fun hmem ↦ hnot (List.contains_iff_mem.mp hmem)
        exact ⟨0, by rw [kept_kept hnew]; rfl, by rw [kept_kept hnew]; rfl⟩
      | succ i =>
        obtain ⟨slot, hkey, hx⟩ := ih (isLastAt_succ.mp h) hlength
        cases hagain : rest.contains first with
        | true =>
          exact ⟨slot, by rw [kept_dropped hagain, hkey], by rw [kept_dropped hagain, hx]; rfl⟩
        | false =>
          exact ⟨slot + 1, by rw [kept_kept hagain]; exact hkey, by rw [kept_kept hagain]; exact hx⟩
  obtain ⟨slot, hkey, hx⟩ := hslot
  rw [← lastOccurrences_eq_kept] at hkey
  exact ⟨slot, lastIndexOf?_of_nodup (nodup_lastOccurrences keys) hkey, hx⟩

theorem length_kept (hlength : xs.length = keys.length) :
    (kept keys xs).length = (keepLast keys).count true := by
  induction keys generalizing xs with
  | nil => rw [kept_nil]; rfl
  | cons first rest ih =>
    obtain ⟨x, xs, rfl⟩ := List.exists_cons_of_length_eq_add_one hlength
    have hrest := ih (Nat.succ.inj hlength)
    cases hagain : rest.contains first with
    | true => rw [kept_dropped hagain, keepLast, hagain, hrest]; rfl
    | false => rw [kept_kept hagain, keepLast, hagain, List.length_cons, hrest]; simp

/-- One element more is kept if its position is marked. -/
theorem kept_concat {keep : Bool} (h : (keepLast keys)[xs.length]? = some keep) (x : α) :
    kept keys (xs ++ [x]) = kept keys xs ++ if keep then [x] else [] := by
  induction xs generalizing keys with
  | nil =>
    cases keys with
    | nil => simp [keepLast] at h
    | cons first rest =>
      obtain rfl : (!rest.contains first) = keep := Option.some.inj h
      cases hagain : rest.contains first with
      | true => exact kept_dropped hagain
      | false => exact kept_kept hagain
  | cons y xs ih =>
    cases keys with
    | nil => simp [keepLast] at h
    | cons first rest =>
      have hrest : kept rest (xs ++ [x]) = kept rest xs ++ if keep then [x] else [] := ih h
      cases hagain : rest.contains first with
      | true => rw [List.cons_append, kept_dropped hagain, kept_dropped hagain, hrest]
      | false => rw [List.cons_append, kept_kept hagain, kept_kept hagain, hrest, List.cons_append]

/-- Giving slots to names of which none is repeated puts them side by side. -/
theorem Shape.declareAll_of_nodup {names : List String} {shape : Shape}
    (h : (shape.names ++ names).Nodup) : shape.declareAll names = ⟨shape.names ++ names⟩ := by
  induction names generalizing shape with
  | nil => rw [List.append_nil]; rfl
  | cons name rest ih =>
    have hnew : name ∉ shape.names := fun hmem ↦
      (List.nodup_append.mp h).2.2 name hmem name List.mem_cons_self rfl
    have hdeclare : shape.declare name = ⟨shape.names ++ [name]⟩ := if_neg hnew
    rw [List.append_cons] at h ⊢
    rw [declareAll, List.foldl_cons, hdeclare]
    exact ih h

end Keys

/-- What the keys of an object literal say about its object: which of them are marked, and which
names the shape has. -/
structure KeysLaidOut (keys : List String) : Prop where
  length : (keepLast keys).length = keys.length
  marked : ∀ i, (keepLast keys)[i]? = some true ↔ ∃ key, IsLastAt keys i key
  names : (Shape.ofKeys keys).names = kept keys keys
  /-- It is the shape that gives the kept keys slots one after the other. -/
  registered : Shape.ofNames (kept keys keys) = .ofKeys keys
  size : (Shape.ofKeys keys).size = (keepLast keys).count true
  nodup : (Shape.ofKeys keys).names.Nodup
  mem : ∀ key, key ∈ (Shape.ofKeys keys).names ↔ key ∈ keys
  slot : ∀ i key, (kept keys keys)[i]? = some key → (Shape.ofKeys keys).slot? key = some i

theorem keysLaidOut (keys : List String) : KeysLaidOut keys := by
  have hkept := lastOccurrences_eq_kept keys
  have hnodup := nodup_lastOccurrences keys
  refine ⟨length_keepLast keys, fun _ ↦ keepLast_eq_true_iff, hkept, ?_, ?_, hnodup,
    fun _ ↦ mem_lastOccurrences, ?_⟩
  · rw [← hkept]
    exact Shape.declareAll_of_nodup hnodup
  · rw [← length_kept rfl, ← hkept]
    rfl
  · intro i key hi
    rw [← hkept] at hi
    exact lastIndexOf?_of_nodup hnodup hi

/-! ## On the tree -/

/-- The initializers are evaluated one after the other, each in the state that the one before it
leaves. -/
inductive EvaluatesFields (call : Caller) (env : Env) :
    RunState → List (String × Expr) → List Value → RunState → Prop
  | nil {st : RunState} : EvaluatesFields call env st [] [] st
  | cons {st st₁ st' : RunState} {key : String} {e : Expr} {fields : List (String × Expr)}
    {value : Value} {values : List Value} : e.eval call env st = .ok value st₁ →
    EvaluatesFields call env st₁ fields values st' →
    EvaluatesFields call env st ((key, e) :: fields) (value :: values) st'

/-- An object has a value in the field of every key, that of the last initializer for it, and it
has no other fields. -/
structure Record.KeepsLast (record : Record) (keys : List String) (values : List Value) : Prop where
  shape : record.shape = .ofKeys keys
  length : values.length = keys.length
  size : record.fields.size = record.shape.size
  field : ∀ i key value, IsLastAt keys i key → values[i]? = some value →
    record.get? key = some value

section Tree

variable {call : Caller} {env : Env} {fields : List (String × Expr)} {st st' : RunState}
  {values : List Value}

theorem EvaluatesFields.length_eq (h : EvaluatesFields call env st fields values st') :
    values.length = (fields.map Prod.fst).length := by
  induction h with
  | nil => rfl
  | cons _ _ ih => rw [List.length_cons, List.map_cons, List.length_cons, ih]

theorem EvaluatesFields.evalFields_eq (h : EvaluatesFields call env st fields values st') :
    evalFields call env fields st = .ok values st' := by
  induction h with
  | nil => rfl
  | cons he _ ih =>
    rw [evalFields, bind_of_ok he, bind_of_ok ih]
    rfl

/-- The initializers succeed in turn, or one of them fails behind others that did. -/
theorem evalFields_cases (call : Caller) (env : Env) (fields : List (String × Expr))
    (st : RunState) :
    (∃ values st', EvaluatesFields call env st fields values st') ∨
      ∃ before key e after values st₁ stop st', fields = before ++ (key, e) :: after ∧
        EvaluatesFields call env st before values st₁ ∧ e.eval call env st₁ = .error stop st' ∧
        evalFields call env fields st = .error stop st' := by
  induction fields generalizing st with
  | nil => exact .inl ⟨[], st, .nil⟩
  | cons field rest ih =>
    obtain ⟨key, e⟩ := field
    cases heval : e.eval call env st with
    | error stop st' =>
      exact .inr ⟨[], key, e, rest, [], st, stop, st', rfl, .nil, heval, bind_of_error heval⟩
    | ok value st₁ =>
      rcases ih st₁ with ⟨values, st', h⟩ | ⟨before, key', e', after, values, st₂, stop, st', rfl,
        hbefore, hfails, hstops⟩
      · exact .inl ⟨value :: values, st', .cons heval h⟩
      · refine .inr ⟨(key, e) :: before, key', e', after, value :: values, st₂, stop, st', rfl,
          .cons heval hbefore, hfails, ?_⟩
        rw [evalFields, bind_of_ok heval, bind_of_error hstops]

/-- The value of an object literal is a new object that keeps the last value of each key, once its
initializers were evaluated in order. -/
theorem Expr.eval_object (call : Caller) (env : Env) (fields : List (String × Expr)) (line : UInt32)
    (st : RunState) :
    (∃ values st' record, EvaluatesFields call env st fields values st' ∧
      record.KeepsLast (fields.map Prod.fst) values ∧
      (Expr.object fields line).eval call env st =
        .ok (.record st'.records.cells.size)
          { st' with records := ⟨st'.records.cells.push record⟩ }) ∨
      ∃ before key e after values st₁ stop st', fields = before ++ (key, e) :: after ∧
        EvaluatesFields call env st before values st₁ ∧ e.eval call env st₁ = .error stop st' ∧
        (Expr.object fields line).eval call env st =
          .error (stop.mapFailure (·.noteLine line)) st' := by
  have heval : (Expr.object fields line).eval call env = Run.annotate (·.noteLine line)
      (evalFields call env fields >>= Run.objectLiteral (fields.map Prod.fst)) := by
    rw [Expr.eval]
    rfl
  rw [heval]
  unfold Run.annotate
  rcases evalFields_cases call env fields st with ⟨values, st', h⟩ | ⟨before, key, e, after, values,
    st₁, stop, st', hfields, hbefore, hfails, hstops⟩
  · have hlength := h.length_eq
    refine .inl ⟨values, st', ⟨.ofKeys (fields.map Prod.fst),
      (kept (fields.map Prod.fst) values).toArray, none⟩, h, ⟨rfl, hlength, ?_, ?_⟩, ?_⟩
    · rw [List.size_toArray, length_kept hlength]
      exact (keysLaidOut _).size.symm
    · intro i key value hlast hvalue
      obtain ⟨slot, hslot, hkept⟩ := kept_getElem? hlast hlength
      simp only [Record.get?, hslot, Option.bind_eq_bind, Option.bind_some, List.getElem?_toArray,
        hkept, hvalue]
    · simp only [bind_of_ok h.evalFields_eq]
      rfl
  · refine .inr ⟨before, key, e, after, values, st₁, stop, st', hfields, hbefore, hfails, ?_⟩
    simp only [bind_of_error hstops]

end Tree

/-! ## In a machine -/

namespace Machine

/-- The run comes to a failure. -/
def Breaks (call : Caller) (m : Machine) : Prop :=
  ∃ count m₁ failure m₂, m.after call count = some m₁ ∧
    Exec.step call m₁ = .error (.failed failure) m₂

/-- The run gets through the code of a node, which starts where the machine stands, and has one
word more on the stack behind it. -/
structure Yields (call : Caller) (m : Machine) (e : Expr) (word : Word) (m' : Machine) :
    Prop where
  runs : ∃ count, m.after call count = some m'
  pc : m'.pc = m.pc + e.codeSize
  stack : m'.stack = m.stack.push word
  bp : m'.bp = m.bp
  function : m'.function = m.function
  code : m'.code = m.code

/-- The run has got through the code of the first initializers of an object literal, one after the
other. Where the key of one is given again, its value is dropped in the next step. -/
inductive Initialized (call : Caller) (m : Machine) (fields : List (String × Expr)) :
    Nat → List Word → Machine → Prop
  | start : Initialized call m fields 0 [] m
  | kept {i : Nat} {words : List Word} {word : Word} {key : String} {e : Expr} {m₁ m₂ : Machine} :
    Initialized call m fields i words m₁ → fields[i]? = some (key, e) →
    IsLastAt (fields.map Prod.fst) i key → m₁.Yields call e word m₂ →
    Initialized call m fields (i + 1) (words ++ [word]) m₂
  | dropped {i : Nat} {words : List Word} {word : Word} {key : String} {e : Expr}
    {m₁ m₂ m₃ : Machine} :
    Initialized call m fields i words m₁ → fields[i]? = some (key, e) →
    ¬IsLastAt (fields.map Prod.fst) i key → m₁.Yields call e word m₂ → m₂.Goes call m₃ →
    m₃ = { m₂ with pc := m₂.pc + 1, stack := m₁.stack } →
    Initialized call m fields (i + 1) (words ++ [word]) m₃

variable {p : Program} {call : Caller} {m m₁ m' : Machine} {fields : List (String × Expr)}
  {i : Nat} {words : List Word} {E : Failure → Machine → Prop} {Q : Machine → Prop}

theorem Initialized.length_eq (h : m.Initialized call fields i words m') :
    words.length = i ∧ i ≤ fields.length := by
  induction h with
  | start => exact ⟨rfl, Nat.zero_le _⟩
  | kept _ hfield _ _ ih | dropped _ hfield _ _ _ _ ih =>
    rw [List.length_append, ih.1]
    exact ⟨rfl, (List.getElem?_eq_some_iff.mp hfield).1⟩

/-- The words that are kept lie on the stack, upon what was there. -/
theorem Initialized.stack_eq (h : m.Initialized call fields i words m') :
    m'.stack = m.stack ++ (TandemScript.kept (fields.map Prod.fst) words).toArray := by
  induction h with
  | start => simp [TandemScript.kept]
  | @kept i words word key e m₁ m₂ hinit hfield hlast hyields ih =>
    have hmark : (keepLast (fields.map Prod.fst))[words.length]? = some true := by
      rw [hinit.length_eq.1]
      exact keepLast_eq_true_iff.mpr ⟨key, hlast⟩
    rw [hyields.stack, ih, kept_concat hmark]
    simp
  | @dropped i words word key e m₁ m₂ m₃ hinit hfield hlast hyields hgoes heq ih =>
    have hmark : (keepLast (fields.map Prod.fst))[words.length]? = some false := by
      rw [hinit.length_eq.1]
      exact keepLast_eq_false (by rw [List.getElem?_map, hfield]; rfl) hlast
    rw [heq, kept_concat hmark]
    simp [ih]

end Machine

/-- What leads a machine somewhere leads its run there, or to a failure. -/
theorem Leads.reached {call : Caller} {E : Failure → Machine → Prop} {Q : Machine → Prop}
    {m : Machine} (hcall : call.CallsNative) (h : Leads E Q m) :
    (∃ count m', m.after call count = some m' ∧ Q m') ∨ m.Breaks call := by
  have hnative := Caller.native_lockstep hcall
  induction h with
  | @arrived m hm => exact .inl ⟨0, m, rfl, hm⟩
  | @step m m₁ hstep _ ih =>
    have hfollows := Exec.step_follows hnative m m rfl
    rw [hstep] at hfollows
    obtain ⟨_, hgoes, rfl⟩ := hfollows
    rcases ih with ⟨count, m', hafter, hm'⟩ | ⟨count, m₂, failure, m₃, hafter, hfails⟩
    · exact .inl ⟨count + 1, m', (Machine.after_of_goes hgoes count).trans hafter, hm'⟩
    · exact .inr ⟨count + 1, m₂, failure, m₃, (Machine.after_of_goes hgoes count).trans hafter,
        hfails⟩
  | @failed m m₁ failure hstep _ =>
    have hfollows := Exec.step_follows hnative m m rfl
    rw [hstep] at hfollows
    rcases hfollows with hwaived | ⟨_, hfails, rfl⟩
    · cases hwaived
    · exact .inr ⟨0, m, failure, _, rfl, hfails⟩

section Code

variable {p : Program} {objects : List Placed} {callers : List Waiting} {operands steps : Nat}
  {m m₁ m' : Machine} {site : Site} {line : UInt32} {fields rest : List (String × Expr)}
  {code : Fragment} {i : Nat} {words : List Word}

theorem Machine.after_trans {call : Caller} {count more : Nat} (h : m.after call count = some m₁)
    (h' : m₁.after call more = some m') : m.after call (count + more) = some m' := by
  induction more generalizing m' with
  | zero =>
    obtain rfl := Option.some.inj h'
    exact h
  | succ more ih =>
    obtain ⟨m₂, hafter, hnext⟩ := Option.bind_eq_some_iff.mp h'
    exact Option.bind_eq_some_iff.mpr ⟨m₂, ih hafter, hnext⟩

/-- The machine has come so far within the activation in which it started. -/
structure Machine.Within (call : Caller) (m m' : Machine) : Prop where
  runs : ∃ count, m.after call count = some m'
  bp : m'.bp = m.bp
  function : m'.function = m.function
  code : m'.code = m.code

theorem Machine.Within.trans {call : Caller} (h : m.Within call m₁) (h' : m₁.Within call m') :
    m.Within call m' where
  runs := by
    obtain ⟨count, hafter⟩ := h.runs
    obtain ⟨more, hafter'⟩ := h'.runs
    exact ⟨count + more, after_trans hafter hafter'⟩
  bp := h'.bp.trans h.bp
  function := h'.function.trans h.function
  code := h'.code.trans h.code

theorem Machine.Yields.within {call : Caller} {e : Expr} {word : Word}
    (h : m.Yields call e word m') : m.Within call m' :=
  ⟨h.runs, h.bp, h.function, h.code⟩

theorem Machine.Initialized.within {call : Caller}
    (h : m.Initialized call fields i words m') : m.Within call m' := by
  induction h with
  | start => exact ⟨⟨0, rfl⟩, rfl, rfl, rfl⟩
  | kept _ _ _ hyields ih => exact ih.trans hyields.within
  | dropped _ _ _ hyields hgoes heq ih =>
    refine (ih.trans hyields.within).trans ⟨⟨1, after_of_goes hgoes 0⟩, ?_, ?_, ?_⟩ <;> rw [heq]

theorem Machine.Framed.reaches (h : m.Framed p objects callers operands)
    (hwithin : m.Within (Function.callWithin steps) m') :
    m.Reaches p m'.pc m'.stack m' := by
  obtain ⟨count, hafter⟩ := hwithin.runs
  obtain ⟨later, callers', operands', h'⟩ := h.exists_after hafter
  have hlater := later_of_after (Function.callWithin_moves steps) hafter
  exact ⟨⟨_, h'.toSound⟩, hwithin.bp, hwithin.function, hwithin.code, hlater.run.config,
    hlater.run.dict, rfl, rfl⟩

/-- The run fails within the code of one of the initializers, behind that of those before it. -/
def Machine.BreaksInitializing (call : Caller) (m : Machine) (fields : List (String × Expr)) :
    Prop :=
  ∃ i words m₁ key e, m.Initialized call fields i words m₁ ∧ fields[i]? = some (key, e) ∧
    (¬∃ word m₂, m₁.Yields call e word m₂) ∧ m₁.Breaks call

/-- The code of a value yields a word, or the run fails there. -/
theorem Machine.Framed.yields (h : m.Framed p objects callers operands)
    (hwithin : m.Within (Function.callWithin (steps + 1)) m₁) (hm : m.Hosts p site) {e : Expr}
    (hemits : e.Emits p.pool.dict site m₁.pc line code) (he : e.isInstruction = false)
    (hcode : m.code.Contains m₁.pc code)
    (hframe : m.bp + m.code.slots + linkCells ≤ m₁.stack.size) :
    (∃ word m₂, m₁.Yields (Function.callWithin (steps + 1)) e word m₂) ∨
      (¬∃ word m₂, m₁.Yields (Function.callWithin (steps + 1)) e word m₂) ∧
        m₁.Breaks (Function.callWithin (steps + 1)) := by
  have hreach := h.reaches hwithin
  by_cases hyields : ∃ word m₂, m₁.Yields (Function.callWithin (steps + 1)) e word m₂
  · exact .inl hyields
  · rcases (hemits.value_leads hm he hcode hframe hreach).reached
      (Function.callWithin_callsNative steps) with ⟨count, m₂, hafter, word, h₂⟩ | hbreaks
    · refine absurd ⟨word, m₂, ⟨count, hafter⟩, ?_, h₂.stack, h₂.bp.trans hwithin.bp.symm,
        h₂.function.trans hwithin.function.symm, h₂.code.trans hwithin.code.symm⟩ hyields
      rw [h₂.pc, hemits.size_eq]
    · exact .inr ⟨hyields, hbreaks⟩

/-- The word that an initializer left is taken off again. -/
theorem Machine.Framed.pops (h : m.Framed p objects callers operands)
    (hwithin : m.Within (Function.callWithin (steps + 1)) m₁) {e : Expr} {word : Word}
    {m₂ : Machine} (hyields : m₁.Yields (Function.callWithin (steps + 1)) e word m₂)
    {others : Fragment} (hcode : m.code.Contains m₂.pc ((.pop, line) :: others)) :
    ∃ m₃, m₂.Goes (Function.callWithin (steps + 1)) m₃ ∧
      m₃ = { m₂ with pc := m₂.pc + 1, stack := m₁.stack } := by
  have hreach := h.reaches (hwithin.trans hyields.within)
  obtain ⟨objects', hs⟩ := hreach.sound
  rw [← hreach.code] at hcode
  have hnext : Next (fun _ _ ↦ False) (· = { m₂ with pc := m₂.pc + 1, stack := m₁.stack }) m₂ :=
    .pop hs hcode hyields.stack fun _ hm' _ ↦ hm'
  exact hnext.goes (Function.callWithin_callsNative steps)

/-- The code of an initializer gets the run to that of the next one, unless it fails. -/
theorem EmitsFields.initializeOne {key : String} {e : Expr}
    (hemits : EmitsFields p.pool.dict site m₁.pc line ((key, e) :: rest) code)
    (h : m.Framed p objects callers operands) (hm : m.Hosts p site)
    (hcode : m.code.Contains m₁.pc code)
    (hframe : m.bp + m.code.slots + linkCells ≤ m.stack.size)
    (hinit : m.Initialized (Function.callWithin (steps + 1)) fields i words m₁)
    (hrest : fields.drop i = (key, e) :: rest) :
    (∃ words' m₂ others, m.Initialized (Function.callWithin (steps + 1)) fields (i + 1) words' m₂ ∧
      EmitsFields p.pool.dict site m₂.pc line rest others ∧ m.code.Contains m₂.pc others ∧
      m₂.pc + others.size = m₁.pc + code.size) ∨
      m.BreaksInitializing (Function.callWithin (steps + 1)) fields := by
  have hfield : fields[i]? = some (key, e) := by
    rw [← List.head?_drop, hrest]
    rfl
  have hlast : IsLastAt (fields.map Prod.fst) i key ↔
      (rest.map Prod.fst).contains key = false := by
    unfold IsLastAt
    rw [List.getElem?_map, hfield, ← List.map_drop, ← List.tail_drop, hrest]
    simp
  have hstack := hinit.stack_eq
  have hframe₁ : m.bp + m.code.slots + linkCells ≤ m₁.stack.size := by
    rw [hstack, Array.size_append]
    omega
  cases hemits with
  | @dropped _ _ _ _ _ _ code others hagain he hvalue hothers =>
    rw [List.append_assoc] at hcode
    rcases h.yields hinit.within hm hvalue he hcode.left hframe₁ with ⟨word, m₂, h₂⟩ | hbreaks
    · have hpc₂ : m₂.pc = m₁.pc + code.size := by rw [h₂.pc, hvalue.size_eq]
      obtain ⟨m₃, hgoes, heq⟩ := h.pops hinit.within h₂ (hpc₂ ▸ hcode.right)
      have hnot : ¬IsLastAt (fields.map Prod.fst) i key := by
        rw [hlast, hagain]
        simp
      have hpc₃ : m₃.pc = m₁.pc + code.size + 1 := by rw [heq, hpc₂]
      refine .inl ⟨_, m₃, others, hinit.dropped hfield hnot h₂ hgoes heq, ?_, ?_, ?_⟩
      · rw [hpc₃]
        exact hothers
      · rw [hpc₃]
        exact hcode.right.right
      · rw [hpc₃]
        simp only [Fragment.size_append, Nat.add_assoc]
        rfl
    · exact .inr ⟨i, words, m₁, key, e, hinit, hfield, hbreaks⟩
  | @kept _ _ _ _ _ _ code others hnew he hvalue hothers =>
    rcases h.yields hinit.within hm hvalue he hcode.left hframe₁ with ⟨word, m₂, h₂⟩ | hbreaks
    · have hpc₂ : m₂.pc = m₁.pc + code.size := by rw [h₂.pc, hvalue.size_eq]
      refine .inl ⟨_, m₂, others, hinit.kept hfield (hlast.mpr hnew) h₂, ?_, ?_, ?_⟩
      · rw [hpc₂]
        exact hothers
      · rw [hpc₂]
        exact hcode.right
      · rw [hpc₂, Fragment.size_append, Nat.add_assoc]
    · exact .inr ⟨i, words, m₁, key, e, hinit, hfield, hbreaks⟩

/-- The code of initializers gets the run through all of them, unless it fails in one. -/
theorem EmitsFields.initialize (hemits : EmitsFields p.pool.dict site m₁.pc line rest code)
    (h : m.Framed p objects callers operands) (hm : m.Hosts p site)
    (hcode : m.code.Contains m₁.pc code)
    (hframe : m.bp + m.code.slots + linkCells ≤ m.stack.size)
    (hinit : m.Initialized (Function.callWithin (steps + 1)) fields i words m₁)
    (hrest : fields.drop i = rest) :
    (∃ words m', m.Initialized (Function.callWithin (steps + 1)) fields fields.length words m' ∧
      m'.pc = m₁.pc + code.size) ∨
      m.BreaksInitializing (Function.callWithin (steps + 1)) fields := by
  induction rest generalizing i words m₁ code with
  | nil =>
    cases hemits with
    | nil =>
      have hlength := hinit.length_eq.2
      have hdone : fields.length ≤ i := List.drop_eq_nil_iff.mp hrest
      obtain rfl : i = fields.length := Nat.le_antisymm hlength hdone
      exact .inl ⟨words, m₁, hinit, rfl⟩
  | cons field rest ih =>
    have hbehind : fields.drop (i + 1) = rest := by
      rw [← List.tail_drop, hrest]
      rfl
    rcases hemits.initializeOne h hm hcode hframe hinit hrest with
      ⟨words', m₂, others, hinit₂, hothers, hcontains, hsize⟩ | hbreaks
    · rcases ih hothers hcontains hinit₂ hbehind with ⟨words'', m', hdone, hpc⟩ | hbreaks
      · exact .inl ⟨words'', m', hdone, hpc.trans hsize⟩
      · exact .inr hbreaks
    · exact .inr hbreaks

/-- The last step of an object literal takes exactly the words that were kept off the stack, and
puts the reference of a new object there, in which every key has the last word that was given for
it. -/
structure Machine.Builds (m₁ : Machine) (below : Array Word) (keys : List String)
    (words : List Word) (m₂ : Machine) : Prop where
  length : words.length = keys.length
  before : m₁.stack = below ++ (TandemScript.kept keys words).toArray
  taken : (TandemScript.kept keys words).length = (Shape.ofKeys keys).size
  made : ∃ reference shapeWord log capacity, reference.view = .reference m₁.heap.used ∧
    m₁.run.dict.shape shapeWord = .ok (.ofKeys keys) ∧
    m₂ = { m₁ with
      pc := m₁.pc + 2, stack := below.push reference, run := { m₁.run with log }
      heap := { m₁.heap with capacity }.add shapeWord
        (TandemScript.kept keys words).toArray } ∧
    Exec.layoutOf m₁.heap.used m₂ = .ok (.ofKeys keys) m₂ ∧
    ∀ i key word, IsLastAt keys i key → words[i]? = some word →
      Exec.readField reference key m₂ = .ok word m₂

/-- A machine at the end of the initializers makes the object, unless it runs out of cells. -/
theorem Machine.Framed.builds (h : m.Framed p objects callers operands)
    (hinit : m.Initialized (Function.callWithin (steps + 1)) fields fields.length words m₁)
    {shapeWord : Word} (hshape : p.pool.dict.shape shapeWord = .ok (.ofKeys (fields.map Prod.fst)))
    (hcode : m.code.Contains m₁.pc [(.new shapeWord, line)]) :
    (∃ failure m₂, Exec.step (Function.callWithin (steps + 1)) m₁ = .error (.failed failure) m₂ ∧
      m₂.RanOut failure) ∨
      ∃ m₂, m₁.Goes (Function.callWithin (steps + 1)) m₂ ∧
        m₁.Builds m.stack (fields.map Prod.fst) words m₂ := by
  have hreach := h.reaches hinit.within
  obtain ⟨objects', hs⟩ := hreach.sound
  have hlength : words.length = (fields.map Prod.fst).length := by
    rw [hinit.length_eq.1, List.length_map]
  have hsize : (kept (fields.map Prod.fst) words).toArray.size =
      (Shape.ofKeys (fields.map Prod.fst)).size := by
    rw [List.size_toArray, length_kept hlength, (keysLaidOut _).size]
  have hshape₁ := hs.grows.shape hshape
  have hnext : Next (fun failure m₂ ↦ m₂.RanOut failure)
      (m₁.Builds m.stack (fields.map Prod.fst) words) m₁ := by
    refine .new (fun _ _ h ↦ h) hs (by rw [hreach.code]; exact hcode) hshape₁ hsize
      hinit.stack_eq ?_
    intro reference log capacity m₂ hview heq hs₂
    have hobject := List.mem_append_right objects' (List.mem_singleton_self
      (⟨m₁.heap.used, .ofKeys (fields.map Prod.fst)⟩ : Placed))
    refine ⟨hlength, hinit.stack_eq, by rw [← hsize, List.size_toArray], reference, shapeWord, log,
      capacity, hview, hshape₁, heq, Exec.layoutOf_of_mem hs₂.heap.toTiled hobject, ?_⟩
    intro i key word hlast hword
    obtain ⟨slot, hslot, hkept⟩ := kept_getElem? hlast hlength
    refine Exec.readField_of_slot hs₂.heap.toTiled hobject hview hslot ?_
    rw [heq]
    refine (Heap.Holds.field?_add_new _ _ _ _ _).trans ?_
    rw [List.getElem?_toArray, hkept, hword]
  have hfollows := Exec.step_follows
    (Caller.native_lockstep (Function.callWithin_callsNative steps)) m₁ m₁ rfl
  unfold Next Ensures at hnext
  cases hstep : Exec.step Caller.native m₁ with
  | ok result m₂ =>
    rw [hstep] at hnext hfollows
    obtain ⟨rfl, hbuilds⟩ := hnext
    obtain ⟨_, hgoes, rfl⟩ := hfollows
    exact .inr ⟨m₂, hgoes, hbuilds⟩
  | error stop m₂ =>
    rw [hstep] at hnext hfollows
    obtain ⟨failure, rfl, hranOut⟩ := hnext
    rcases hfollows with hwaived | ⟨_, hfails, rfl⟩
    · cases hwaived
    · exact .inl ⟨failure, m₂, hfails, hranOut⟩

end Code

/-! ## In both engines -/

/-- The machine stands at the start of the code of an object literal in the function that it
runs. -/
def Machine.AtLiteral (m : Machine) (dict : Dictionary) (fields : List (String × Expr)) : Prop :=
  ∃ (body : Block) (outer : List Shape) (params : List String) (s : Stretch) (line : UInt32),
    body.EmitsFunction dict outer m.function.name params m.function ∧ s ∈ body.stretches 0 ∧
      s.node = .object fields line ∧ m.pc = s.start

/-- An object literal evaluates each of its initializers once, in order, and keeps the last value of
each key, on the tree and in the run of every accepted script, as long as no initializer fails. -/
theorem objectLiteral_keepsLast (fields : List (String × Expr)) :
    (∀ keys, KeysLaidOut keys) ∧
    (∀ call env line st,
      (∃ values st' record, EvaluatesFields call env st fields values st' ∧
        record.KeepsLast (fields.map Prod.fst) values ∧
        (Expr.object fields line).eval call env st =
          .ok (.record st'.records.cells.size)
            { st' with records := ⟨st'.records.cells.push record⟩ }) ∨
        ∃ before key e after values st₁ stop st', fields = before ++ (key, e) :: after ∧
          EvaluatesFields call env st before values st₁ ∧ e.eval call env st₁ = .error stop st' ∧
          (Expr.object fields line).eval call env st =
            .error (stop.mapFailure (·.noteLine line)) st') ∧
    ∀ (script : Script) config level main pool (m₀ m : Machine) count steps,
      script.Accepted config level main pool → script.entered? config level = some m₀ →
      m₀.after (Function.callWithin (steps + 1)) count = some m → m.AtLiteral pool.dict fields →
      (∃ words m₁, m.Initialized (Function.callWithin (steps + 1)) fields fields.length words m₁ ∧
        ((∃ failure m₂,
          Exec.step (Function.callWithin (steps + 1)) m₁ = .error (.failed failure) m₂ ∧
            m₂.RanOut failure) ∨
          ∃ m₂, m₁.Goes (Function.callWithin (steps + 1)) m₂ ∧
            m₁.Builds m.stack (fields.map Prod.fst) words m₂)) ∨
        m.BreaksInitializing (Function.callWithin (steps + 1)) fields := by
  refine ⟨keysLaidOut, fun call env line st ↦ Expr.eval_object call env fields line st, ?_⟩
  intro script config level main pool m₀ m count steps h hentered hafter hliteral
  obtain ⟨objects, callers, operands, hm⟩ := (h.framed hentered).1.exists_after hafter
  obtain ⟨body, outer, params, s, l, hbody, hs, hnode, hpc⟩ := hliteral
  obtain ⟨instrs, blockLine, fragment, rfl, hemitted⟩ :=
    Program.emitted_of_emits (p := h.program) hbody hm.code
  have hshort : 0 + fragment.size < codeBound := by
    have hle := hemitted.contains.left.le_size
    have hdefined := hm.defined.isShort _ hm.code
    omega
  have hspans := hemitted.emits.spans ⟨hemitted.slot_lt, h.program.undefined⟩ hshort
  obtain ⟨before, code, behind, rfl, hstands⟩ := hspans.stands s hs
  obtain ⟨line, hemits⟩ := hstands.emits
  have hcontains : m.code.Contains m.pc code := by
    rw [hpc, hstands.start_eq]
    exact hemitted.contains.left.left.right
  rw [hnode, ← hpc] at hemits
  have hhosts : m.Hosts h.program
      ⟨m.function.name, .ofFunction params (.mk instrs blockLine) :: outer⟩ :=
    ⟨fun _ _ ↦ hemitted.slot_lt, m.stackLimit, returning _ _, by omega⟩
  have hframe : m.bp + m.code.slots + linkCells ≤ m.stack.size := by
    rw [hm.size]
    omega
  cases hemits with
  | @object _ _ _ _ _ _ shapeWord hfields hshape =>
    have hstart : m.Initialized (Function.callWithin (steps + 1)) fields 0 [] m := .start
    rcases hfields.initialize hm hhosts hcontains.left hframe hstart rfl with
      ⟨words, m₁, hinit, hpc₁⟩ | hbreaks
    · have hnew : m.code.Contains m₁.pc [(.new shapeWord, line)] := by
        rw [hpc₁]
        exact hcontains.right
      exact .inl ⟨words, m₁, hinit, hm.builds hinit hshape hnew⟩
    · exact .inr hbreaks

/-- The machine of an accepted script starts at the beginning of its main function. -/
theorem Script.Accepted.entered_main {script : Script} {config : Config} {level : Option Level}
    {main : Function} {pool : Pool} {m₀ : Machine} (h : script.Accepted config level main pool)
    (hentered : script.entered? config level = some m₀) : m₀.function = main ∧ m₀.pc = 0 := by
  obtain ⟨code, callee, receiver, dict, -, -, rfl⟩ := h.entered_eq hentered
  exact ⟨rfl, rfl⟩

/-- The fields of a literal that gives a key twice, and another one in between. -/
def twiceGiven : List (String × Expr) :=
  [("a", .int 1), ("b", .object [("a", .int 2)] 0), ("a", .int 3)]

def returnsTwiceGiven : Script :=
  .ofList [.returning (.object twiceGiven 0)]

theorem twiceGiven_keepsLast :
    ∃ main pool m₀, returnsTwiceGiven.Accepted {} none main pool ∧
      returnsTwiceGiven.entered? {} none = some m₀ ∧
      m₀.after (Function.callWithin 1) 0 = some m₀ ∧ m₀.AtLiteral pool.dict twiceGiven ∧
      ((∃ words m₁, m₀.Initialized (Function.callWithin 1) twiceGiven 3 words m₁ ∧
        ((∃ failure m₂, Exec.step (Function.callWithin 1) m₁ = .error (.failed failure) m₂ ∧
            m₂.RanOut failure) ∨
          ∃ m₂, m₁.Goes (Function.callWithin 1) m₂ ∧
            m₁.Builds m₀.stack ["a", "b", "a"] words m₂)) ∨
        m₀.BreaksInitializing (Function.callWithin 1) twiceGiven) := by
  have hcheck : returnsTwiceGiven.isAccepted none = true := by decide +kernel
  have hstate : (returnsTwiceGiven.entered? {} none).isSome = true := by decide +kernel
  obtain ⟨main, pool, h⟩ := Script.accepted_of_check hcheck {}
  obtain ⟨m₀, hentered⟩ := Option.isSome_iff_exists.mp hstate
  obtain ⟨hfunction, hpc⟩ := h.entered_main hentered
  have hbody :
      returnsTwiceGiven.body.EmitsFunction pool.dict [] m₀.function.name [] m₀.function := by
    rw [hfunction, (h.main_emitted h.main_code.choose_spec.1).1]
    exact h.spec.2.emits
  have hliteral : m₀.AtLiteral pool.dict twiceGiven :=
    ⟨_, _, _, ⟨.object twiceGiven 0, 0, false⟩, 0, hbody,
      List.mem_of_getElem? (i := 1) rfl, rfl, hpc⟩
  exact ⟨main, pool, m₀, h, hentered, rfl, hliteral,
    (objectLiteral_keepsLast twiceGiven).2.2 _ _ _ _ _ m₀ m₀ 0 0 h hentered rfl hliteral⟩

end TandemScript
