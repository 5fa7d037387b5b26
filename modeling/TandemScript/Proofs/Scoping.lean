import TandemScript.Compile
import TandemScript.Evaluate
import TandemScript.Proofs.Layout

/-!
# Scopes and activations

The compiler resolves names in scopes, the tree evaluator in activations. A function has the same
variables in both, and they start with the same values. Where no function reads a variable of a
function around it, a name is a variable of the function itself or global in both.
-/

namespace TandemScript

/-! ## Programs without captured variables -/

/-- A name that a function reads is its own variable or no variable of a function around it. The
scope of the function itself comes first. -/
def Shape.isOwnOrGlobal (scopes : List Shape) (name : String) : Bool :=
  match nearest? name scopes with
  | some (hops, _) => hops = 0
  | none => true

mutual

/-- No function reads a variable of a function around it. -/
def Expr.isCaptureFree (scopes : List Shape) : Expr → Bool
  | .block body => body.isCaptureFree scopes
  | .literal .. => true
  | .var name _ => Shape.isOwnOrGlobal scopes name
  | .assign _ value _ _ => value.isCaptureFree scopes
  | .function _ params body _ => body.isCaptureFree (.ofFunction params body :: scopes)
  | .call callee args _ => callee.isCaptureFree scopes && listIsCaptureFree scopes args
  | .ret value _ => value.isCaptureFree scopes
  | .cond test onTrue onFalse _ =>
    test.isCaptureFree scopes && onTrue.isCaptureFree scopes && onFalse.isCaptureFree scopes
  | .object fields _ => fieldsAreCaptureFree scopes fields
  | .field receiver _ _ => receiver.isCaptureFree scopes
  | .setField receiver _ value _ => receiver.isCaptureFree scopes && value.isCaptureFree scopes
  | .method receiver _ args _ => receiver.isCaptureFree scopes && listIsCaptureFree scopes args

def Block.isCaptureFree (scopes : List Shape) : Block → Bool
  | .mk instrs _ => listIsCaptureFree scopes instrs

def listIsCaptureFree (scopes : List Shape) : List Expr → Bool
  | [] => true
  | e :: rest => e.isCaptureFree scopes && listIsCaptureFree scopes rest

def fieldsAreCaptureFree (scopes : List Shape) : List (String × Expr) → Bool
  | [] => true
  | (_, e) :: rest => e.isCaptureFree scopes && fieldsAreCaptureFree scopes rest

end

/-- No function of the program reads a variable of a function around it. -/
def Script.isCaptureFree (script : Script) : Bool :=
  script.body.isCaptureFree [.ofFunction [] script.body]

/-! ## Slots -/

section Slots

variable {α : Type} [DecidableEq α] {a b : α} {l : List α} {i : Nat}

theorem lastIndexOf?_getElem? (h : lastIndexOf? a l = some i) : l[i]? = some a := by
  induction l generalizing i with
  | nil => cases h
  | cons b rest ih =>
    unfold lastIndexOf? at h
    split at h
    · next j hj =>
      obtain rfl := Option.some.inj h
      exact ih hj
    · split at h
      · next hb =>
        obtain rfl := Option.some.inj h
        rw [hb]
        rfl
      · cases h

theorem lastIndexOf?_isSome : (lastIndexOf? a l).isSome = decide (a ∈ l) := by
  induction l with
  | nil => rfl
  | cons b rest ih =>
    unfold lastIndexOf?
    cases hrest : lastIndexOf? a rest with
    | some j =>
      rw [hrest] at ih
      simp at ih
      simp [ih]
    | none =>
      rw [hrest] at ih
      simp at ih
      by_cases hb : b = a
      · simp [hb]
      · simp [hb, ih, Ne.symm hb]

theorem lastIndexOf?_append_singleton :
    lastIndexOf? a (l ++ [b]) = if b = a then some l.length else lastIndexOf? a l := by
  induction l with
  | nil => by_cases hb : b = a <;> simp [lastIndexOf?, hb]
  | cons c rest ih =>
    rw [List.cons_append, lastIndexOf?, ih]
    by_cases hb : b = a
    · simp [hb]
    · simp [hb, lastIndexOf?]

end Slots

namespace Shape

theorem getElem?_of_slot? {shape : Shape} {name : String} {slot : Nat}
    (h : shape.slot? name = some slot) : shape.names[slot]? = some name :=
  lastIndexOf?_getElem? h

/-- Different names have different slots. -/
theorem slot?_inj {shape : Shape} {name other : String} {slot : Nat}
    (h : shape.slot? name = some slot) (h' : shape.slot? other = some slot) : name = other :=
  Option.some.inj ((getElem?_of_slot? h).symm.trans (getElem?_of_slot? h'))

theorem slot?_append (shape : Shape) (name other : String) :
    (shape.append name).slot? other = if name = other then some shape.size else shape.slot? other :=
  lastIndexOf?_append_singleton

theorem slot?_eq_none_of_own {scope : Shape} {outer : List Shape} {name : String}
    (h : isOwnOrGlobal (scope :: outer) name = true) (hscope : scope.slot? name = none) :
    ∀ other ∈ outer, other.slot? name = none := by
  have hnearest : nearest? name outer = none := by
    unfold isOwnOrGlobal nearest? at h
    simp only [hscope] at h
    cases houter : nearest? name outer with
    | none => rfl
    | some found => simp [houter] at h
  clear h
  induction outer with
  | nil => simp
  | cons other rest ih =>
    unfold nearest? at hnearest
    split at hnearest
    · cases hnearest
    · next hother =>
      have hrest : nearest? name rest = none := Option.map_eq_none_iff.mp hnearest
      exact List.forall_mem_cons.mpr ⟨hother, ih hrest⟩

end Shape

/-! ## Activations -/

/-- The variables of an activation are the names of a scope, with the values of its slots. -/
structure Bindings.Fits (bindings : Bindings) (scope : Shape) (values : List Value) : Prop where
  size : values.length = scope.size
  get? : ∀ name, bindings.get? name = (scope.slot? name).bind (values[·]?)

namespace Bindings.Fits

variable {bindings : Bindings} {scope : Shape} {values : List Value}

theorem append (h : bindings.Fits scope values) (name : String) (value : Value) :
    (bindings.set name value).Fits (scope.append name) (values ++ [value]) where
  size := by
    unfold Shape.append Shape.size
    rw [List.length_append, List.length_append, h.size]
    rfl
  get? other := by
    rw [get?_set, Shape.slot?_append]
    by_cases hname : name = other
    · rw [if_pos hname, if_pos hname, ← h.size]
      simp
    · rw [if_neg hname, if_neg hname, h.get?]
      cases hslot : scope.slot? other with
      | none => rfl
      | some slot =>
        have hlt := Shape.lt_of_slot? hslot
        exact (List.getElem?_append_left (by rw [h.size]; exact hlt)).symm

theorem isSome (h : bindings.Fits scope values) (name : String) :
    (bindings.get? name).isSome = (scope.slot? name).isSome := by
  rw [h.get?]
  cases hslot : scope.slot? name with
  | none => rfl
  | some slot =>
    have hlt := Shape.lt_of_slot? hslot
    rw [Option.bind_some, List.getElem?_eq_getElem (by rw [h.size]; exact hlt)]
    rfl

theorem setAll (h : bindings.Fits scope values) (params : List String) (args : List Value)
    (hlength : args.length = params.length) :
    (bindings.setAll (params.zip args)).Fits (params.foldl Shape.append scope)
      (values ++ args) := by
  induction params generalizing bindings scope values args with
  | nil =>
    obtain rfl := List.length_eq_zero_iff.mp hlength
    rw [List.append_nil]
    exact h
  | cons param rest ih =>
    cases args with
    | nil => cases hlength
    | cons arg others =>
      have hrest := ih (h.append param arg) others (Nat.succ.inj hlength)
      rw [List.append_assoc] at hrest
      exact hrest

theorem declareUndefined (h : bindings.Fits scope values) (names : List String) :
    ∃ count, (bindings.declareUndefined names).Fits (scope.declareAll names)
      (values ++ List.replicate count .undefined) := by
  induction names generalizing bindings scope values with
  | nil => exact ⟨0, by rw [List.replicate_zero, List.append_nil]; exact h⟩
  | cons name rest ih =>
    by_cases hname : name ∈ scope.names
    · have hbound : (bindings.get? name).isSome = true := by
        rw [h.isSome]
        exact lastIndexOf?_isSome.trans (decide_eq_true hname)
      obtain ⟨count, hrest⟩ := ih h
      refine ⟨count, ?_⟩
      unfold Bindings.declareUndefined Shape.declareAll at hrest ⊢
      rw [List.foldl_cons, List.foldl_cons, Shape.declare, if_pos hname, if_pos hbound]
      exact hrest
    · have hbound : (bindings.get? name).isSome = false := by
        rw [h.isSome]
        exact lastIndexOf?_isSome.trans (decide_eq_false hname)
      obtain ⟨count, hrest⟩ := ih (h.append name .undefined)
      refine ⟨count + 1, ?_⟩
      rw [List.append_assoc] at hrest
      unfold Bindings.declareUndefined Shape.declareAll at hrest ⊢
      rw [List.foldl_cons, List.foldl_cons, Shape.declare, if_neg hname,
        if_neg (by rw [hbound]; exact Bool.false_ne_true)]
      exact hrest

end Bindings.Fits

/-- An activation has the variables of the function: the receiver and the arguments in the first
slots, and undefined ones behind them. -/
theorem Bindings.activation_fits (receiver : Value) (params : List String) (args : List Value)
    (body : Block) (hlength : args.length = params.length) :
    ∃ count, (activation receiver params args body.declared).Fits (.ofFunction params body)
      (receiver :: args ++ List.replicate count .undefined) := by
  have hthis : (set {} "this" receiver).Fits (Shape.empty.declare "this") [receiver] := by
    refine ⟨rfl, fun name ↦ ?_⟩
    rw [get?_set]
    by_cases hname : "this" = name
    · subst hname
      rfl
    · have hslot : (Shape.empty.declare "this").slot? name = none := by
        unfold Shape.slot?
        change lastIndexOf? name ["this"] = none
        simp [lastIndexOf?, hname]
      rw [if_neg hname, hslot]
      rfl
  exact (hthis.setAll params args hlength).declareUndefined body.declared

namespace Frames

/-- The activation has the variables of a scope. -/
def Has (frames : Frames) (id : FrameId) (scope : Shape) : Prop :=
  ∃ bindings, frames.cells[id]? = some bindings ∧
    ∀ name, (bindings.get? name).isSome = (scope.slot? name).isSome

/-- The activations around some code have the variables of its scopes. -/
def Match (frames : Frames) : Env → List Shape → Prop
  | [], [] => True
  | id :: env, scope :: scopes => frames.Has id scope ∧ frames.Match env scopes
  | _, _ => False

/-- All activations stay, with their variables, and at most one of them has other values then. -/
def Keeps (changed : Option FrameId) (frames frames' : Frames) : Prop :=
  ∀ id bindings, frames.cells[id]? = some bindings → ∃ bindings',
    frames'.cells[id]? = some bindings' ∧ (changed ≠ some id → bindings' = bindings) ∧
      ∀ name, (bindings'.get? name).isSome = (bindings.get? name).isSome

variable {frames frames' frames'' : Frames} {changed : Option FrameId} {own id : FrameId}
  {env : Env} {scopes : List Shape} {scope : Shape} {name : String}

theorem Keeps.refl (changed : Option FrameId) (frames : Frames) : Keeps changed frames frames :=
  fun _ bindings h ↦ ⟨bindings, h, fun _ ↦ rfl, fun _ ↦ rfl⟩

theorem Keeps.trans (h : Keeps changed frames frames') (h' : Keeps changed frames' frames'') :
    Keeps changed frames frames'' := by
  intro id bindings hbindings
  obtain ⟨bindings', hbindings', hsame, hnames⟩ := h id bindings hbindings
  obtain ⟨bindings'', hbindings'', hsame', hnames'⟩ := h' id bindings' hbindings'
  exact ⟨bindings'', hbindings'', fun hne ↦ (hsame' hne).trans (hsame hne),
    fun name ↦ (hnames' name).trans (hnames name)⟩

/-- Where no activation has changed, it may be said of one that it might have. -/
theorem Keeps.weaken (h : Keeps none frames frames') : Keeps changed frames frames' := by
  intro id bindings hbindings
  obtain ⟨bindings', hbindings', hsame, hnames⟩ := h id bindings hbindings
  exact ⟨bindings', hbindings', fun _ ↦ hsame (by simp), hnames⟩

theorem Has.mono (h : frames.Has id scope) (hkeeps : Keeps changed frames frames') :
    frames'.Has id scope := by
  obtain ⟨bindings, hbindings, hnames⟩ := h
  obtain ⟨bindings', hbindings', -, hnames'⟩ := hkeeps id bindings hbindings
  exact ⟨bindings', hbindings', fun name ↦ (hnames' name).trans (hnames name)⟩

theorem Match.mono (h : frames.Match env scopes) (hkeeps : Keeps changed frames frames') :
    frames'.Match env scopes := by
  induction env generalizing scopes with
  | nil => cases scopes <;> exact h
  | cons id env ih =>
    cases scopes with
    | nil => exact h
    | cons scope scopes => exact ⟨h.1.mono hkeeps, ih h.2⟩

/-- A new activation changes no other one. -/
theorem Keeps.add (frames : Frames) (bindings : Bindings) :
    Keeps none frames (frames.add bindings).2 := by
  intro id old hold
  refine ⟨old, ?_, fun _ ↦ rfl, fun _ ↦ rfl⟩
  have hlt := (Array.getElem?_eq_some_iff.mp hold).1
  unfold Frames.add
  rw [Array.getElem?_push_lt hlt]
  rwa [Array.getElem?_eq_getElem hlt] at hold

/-- What changes a later activation changes none that there are. -/
theorem Keeps.of_later {later : FrameId} (hlater : frames.cells.size ≤ later)
    (h : Keeps (some later) frames frames') : Keeps none frames frames' := by
  intro id bindings hbindings
  obtain ⟨bindings', hbindings', hsame, hnames⟩ := h id bindings hbindings
  have hlt := (Array.getElem?_eq_some_iff.mp hbindings).1
  have hne : some later ≠ some id := fun hsome ↦
    Nat.ne_of_gt (Nat.lt_of_lt_of_le hlt hlater) (Option.some.inj hsome)
  exact ⟨bindings', hbindings', fun _ ↦ hsame hne, hnames⟩

theorem bind_cells {bindings : Bindings} (h : frames.cells[own]? = some bindings) (name : String)
    (value : Value) :
    (frames.bind own name value).cells[own]? = some (bindings.set name value) := by
  unfold bind
  rw [Array.getElem?_modify, if_pos rfl, h]
  rfl

/-- Writing a variable of an activation keeps all others, and its names. -/
theorem Keeps.bind {bindings : Bindings} (h : frames.cells[own]? = some bindings)
    (hname : (bindings.get? name).isSome = true) (value : Value) :
    Keeps (some own) frames (frames.bind own name value) := by
  intro id old hold
  by_cases hid : id = own
  · subst hid
    obtain rfl := Option.some.inj (h.symm.trans hold)
    refine ⟨_, bind_cells h name value, fun hne ↦ absurd rfl hne, fun other ↦ ?_⟩
    rw [Bindings.get?_set]
    split
    · next hother => rw [← hother, hname]; rfl
    · rfl
  · refine ⟨old, ?_, fun _ ↦ rfl, fun _ ↦ rfl⟩
    unfold Frames.bind
    rw [Array.getElem?_modify, if_neg (Ne.symm hid)]
    exact hold

theorem getIn?_of_cells {bindings : Bindings} (h : frames.cells[id]? = some bindings)
    (name : String) : frames.getIn? id name = bindings.get? name := by
  unfold getIn?
  rw [h]
  rfl

theorem lt_size_of_getIn? {value : Value} (h : frames.getIn? id name = some value) :
    id < frames.cells.size := by
  obtain ⟨bindings, hbindings, -⟩ := Option.bind_eq_some_iff.mp h
  exact (Array.getElem?_eq_some_iff.mp hbindings).1

theorem getIn?_size (frames : Frames) (name : String) :
    frames.getIn? frames.cells.size name = none := by
  unfold getIn?
  rw [Array.getElem?_eq_none (Nat.le_refl _)]
  rfl

theorem getIn?_bind_self (hid : id < frames.cells.size) (name : String) (value : Value) :
    (frames.bind id name value).getIn? id name = some value := by
  have hbindings := bind_cells (Array.getElem?_eq_getElem hid) name value
  rw [getIn?_of_cells hbindings, Bindings.get?_set, if_pos rfl]

/-- Binding a name concerns no other variable. -/
theorem getIn?_bind_of_ne {other : String} (h : ¬ (other = name ∧ id = own)) (value : Value) :
    (frames.bind own name value).getIn? id other = frames.getIn? id other := by
  unfold bind getIn?
  rw [Array.getElem?_modify]
  split
  · next hid =>
    have hne : name ≠ other := fun heq ↦ h ⟨heq.symm, hid.symm⟩
    cases frames.cells[id]? with
    | none => rfl
    | some bindings => exact (Bindings.get?_set ..).trans (if_neg hne)
  · rfl

theorem getIn?_add_new (frames : Frames) (bindings : Bindings) (name : String) :
    (frames.add bindings).2.getIn? frames.cells.size name = bindings.get? name :=
  getIn?_of_cells Array.getElem?_push_size name

theorem getIn?_add_of_ne (h : id ≠ frames.cells.size) (bindings : Bindings) (name : String) :
    (frames.add bindings).2.getIn? id name = frames.getIn? id name := by
  unfold add getIn?
  rw [Array.getElem?_push, if_neg h]

/-- A variable of the innermost activation is found there. -/
theorem owner?_own {bindings : Bindings} (h : frames.cells[own]? = some bindings)
    (hname : (bindings.get? name).isSome = true) (env : Env) :
    frames.owner? name (own :: env) = some own := by
  unfold owner?
  rw [getIn?_of_cells h, if_pos hname]

theorem lookup?_own {bindings : Bindings} (h : frames.cells[own]? = some bindings)
    (hname : (bindings.get? name).isSome = true) (env : Env) :
    frames.lookup? (own :: env) name = bindings.get? name := by
  unfold lookup?
  rw [owner?_own h hname]
  exact getIn?_of_cells h name

/-- A name that no scope has is found in no activation. -/
theorem lookup?_eq_none (h : frames.Match env scopes)
    (hscopes : ∀ scope ∈ scopes, scope.slot? name = none) : frames.lookup? env name = none := by
  have howner : frames.owner? name env = none := by
    induction env generalizing scopes with
    | nil => rfl
    | cons id env ih =>
      cases scopes with
      | nil => exact h.elim
      | cons scope scopes =>
        obtain ⟨⟨bindings, hbindings, hnames⟩, hrest⟩ := h
        obtain ⟨hscope, hothers⟩ := List.forall_mem_cons.mp hscopes
        have hnot : (bindings.get? name).isSome = false := by
          rw [hnames, hscope]
          rfl
        unfold owner?
        rw [getIn?_of_cells hbindings, hnot]
        exact ih hrest hothers
  unfold lookup?
  rw [howner]
  rfl

end Frames

end TandemScript
