import TandemScript.Evaluate
import TandemScript.Proofs.Scoping
import TandemScript.Proofs.Slots

/-!
# Variables that functions share

Functions written in one activation share its variables, and those of the activations around it. An
assignment goes to the nearest activation that has the name, so that every chain on which the name
means that variable reads the new value, and nothing else changes. A declaration concerns only the
lookups that come by its own activation.

Nothing is assumed about the chains. Those of a program have common ends, since an activation always
has the same activations around it.
-/

namespace TandemScript

namespace Frames

variable {frames frames' : Frames} {id : FrameId} {env : Env} {name : String} {value : Value}

/-! ## Lookups -/

/-- The activations that a lookup comes by, the one that has the name included. -/
def visited (frames : Frames) (name : String) : Env → List FrameId
  | [] => []
  | id :: outer => if (frames.getIn? id name).isSome then [id] else id :: frames.visited name outer

theorem lookup?_cons (frames : Frames) (id : FrameId) (env : Env) (name : String) :
    frames.lookup? (id :: env) name = (frames.getIn? id name).or (frames.lookup? env name) := by
  unfold lookup?
  rw [owner?]
  cases hvalue : frames.getIn? id name with
  | none => rfl
  | some value => exact hvalue

theorem isSome_getIn?_of_owner? (h : frames.owner? name env = some id) :
    (frames.getIn? id name).isSome = true := by
  induction env with
  | nil => cases h
  | cons own outer ih =>
    unfold owner? at h
    split at h
    · next hown =>
      obtain rfl := Option.some.inj h
      exact hown
    · exact ih h

/-- A lookup ends in an activation that has the name. -/
theorem owner?_of_mem_visited (h : id ∈ frames.visited name env)
    (hbound : (frames.getIn? id name).isSome = true) : frames.owner? name env = some id := by
  induction env with
  | nil => cases h
  | cons own outer ih =>
    unfold visited at h
    unfold owner?
    split
    · next hown =>
      rw [if_pos hown] at h
      rw [List.mem_singleton.mp h]
    · next hown =>
      rw [if_neg hown] at h
      have hne : id ≠ own := fun heq ↦ hown (heq ▸ hbound)
      exact ih ((List.mem_cons.mp h).resolve_left hne)

theorem mem_visited_of_owner? (h : frames.owner? name env = some id) :
    id ∈ frames.visited name env := by
  induction env with
  | nil => cases h
  | cons own outer ih =>
    unfold owner? at h
    unfold visited
    split at h
    · next hown =>
      rw [if_pos hown, Option.some.inj h]
      exact List.mem_singleton_self id
    · next hown =>
      rw [if_neg hown]
      exact List.mem_cons_of_mem own (ih h)

theorem isSome_lookup? (frames : Frames) (env : Env) (name : String) :
    (frames.lookup? env name).isSome = (frames.owner? name env).isSome := by
  unfold lookup?
  cases howner : frames.owner? name env with
  | none => rfl
  | some id => exact isSome_getIn?_of_owner? howner

/-! ## A change in one activation -/

/-- A lookup finds what it found where no activation that it comes by has changed. -/
theorem lookup?_congr
    (h : ∀ id ∈ frames.visited name env, frames'.getIn? id name = frames.getIn? id name) :
    frames'.lookup? env name = frames.lookup? env name := by
  induction env with
  | nil => rfl
  | cons own outer ih =>
    rw [lookup?_cons, lookup?_cons]
    unfold visited at h
    split at h
    · next hown =>
      obtain ⟨value, hvalue⟩ := Option.isSome_iff_exists.mp hown
      rw [h own (List.mem_singleton_self own), hvalue]
      rfl
    · next hown =>
      rw [h own List.mem_cons_self, ih fun id hid ↦ h id (List.mem_cons_of_mem own hid)]

theorem owner?_congr
    (h : ∀ id, (frames'.getIn? id name).isSome = (frames.getIn? id name).isSome) (env : Env) :
    frames'.owner? name env = frames.owner? name env := by
  induction env with
  | nil => rfl
  | cons own outer ih => rw [owner?, owner?, h own, ih]

/-- A value that one activation alone has got is found by all lookups that come by. -/
theorem lookup?_of_mem_visited
    (hsame : ∀ other, other ≠ id → frames'.getIn? other name = frames.getIn? other name)
    (hvalue : frames'.getIn? id name = some value) (h : id ∈ frames.visited name env) :
    frames'.lookup? env name = some value := by
  induction env with
  | nil => cases h
  | cons own outer ih =>
    rw [lookup?_cons]
    by_cases hown : own = id
    · rw [hown, hvalue]
      rfl
    · unfold visited at h
      split at h
      · exact absurd (List.mem_singleton.mp h).symm hown
      · next hfree =>
        rw [hsame own hown, Option.not_isSome_iff_eq_none.mp hfree, Option.none_or]
        exact ih ((List.mem_cons.mp h).resolve_left (Ne.symm hown))

/-! ## Binding and declaring names -/

/-- Bind names in one activation, one after the other. -/
def bindAll (frames : Frames) (id : FrameId) (entries : List (String × Value)) : Frames :=
  entries.foldl (fun frames (name, value) ↦ frames.bind id name value) frames

/-- Bind those names to the undefined value that one activation does not have. -/
def declare (frames : Frames) (id : FrameId) (names : List String) : Frames :=
  ⟨frames.cells.modify id fun bindings ↦ bindings.declareUndefined names⟩

theorem getIn?_declare_self (hid : id < frames.cells.size) (names : List String) (name : String) :
    (frames.declare id names).getIn? id name =
      (frames.getIn? id name).or (if name ∈ names then some .undefined else none) := by
  have hbindings : frames.cells[id]? = some frames.cells[id] := Array.getElem?_eq_getElem hid
  have hdeclared : (frames.declare id names).cells[id]? =
      some (frames.cells[id].declareUndefined names) := by
    unfold declare
    rw [Array.getElem?_modify, if_pos rfl, hbindings]
    rfl
  rw [getIn?_of_cells hdeclared, getIn?_of_cells hbindings, Bindings.get?_declareUndefined]

theorem getIn?_declare_of_ne {other : FrameId} (h : other ≠ id) (names : List String)
    (name : String) : (frames.declare id names).getIn? other name = frames.getIn? other name := by
  unfold declare getIn?
  rw [Array.getElem?_modify, if_neg (Ne.symm h)]

/-! ## What the operations change -/

/-- The variable that a name means along a chain has another value, and nothing else has. -/
structure Reassigned (frames frames' : Frames) (env : Env) (name : String) (value : Value) :
    Prop where
  /-- The value is read along every chain on which the name means that variable. -/
  shared : ∀ chain, frames.owner? name chain = frames.owner? name env →
    frames'.lookup? chain name = some value
  /-- Every other lookup finds what it found. -/
  unrelated : ∀ chain other,
    ¬ (other = name ∧ frames.owner? name chain = frames.owner? name env) →
      frames'.lookup? chain other = frames.lookup? chain other
  /-- Every name means the variable that it meant. -/
  owner : ∀ chain other, frames'.owner? other chain = frames.owner? other chain

/-- A name has a value in one activation, whether or not it had one there. -/
structure Defined (frames frames' : Frames) (id : FrameId) (name : String) (value : Value) :
    Prop where
  visiting : ∀ chain, id ∈ frames.visited name chain → frames'.lookup? chain name = some value
  unrelated : ∀ chain other, ¬ (other = name ∧ id ∈ frames.visited name chain) →
    frames'.lookup? chain other = frames.lookup? chain other

/-- Those of some names are undefined in one activation that it did not have. -/
structure Hoisted (frames frames' : Frames) (id : FrameId) (names : List String) : Prop where
  bound : ∀ name, (frames.getIn? id name).isSome = true →
    frames'.getIn? id name = frames.getIn? id name
  visiting : ∀ chain, ∀ name ∈ names, id ∈ frames.visited name chain →
    frames.getIn? id name = none → frames'.lookup? chain name = some .undefined
  unrelated : ∀ chain name, ¬ (name ∈ names ∧ id ∈ frames.visited name chain ∧
    frames.getIn? id name = none) → frames'.lookup? chain name = frames.lookup? chain name

/-- A name can be assigned where a lookup finds it. -/
theorem isSome_assign? (frames : Frames) (env : Env) (name : String) (value : Value) :
    (frames.assign? env name value).isSome = (frames.lookup? env name).isSome :=
  calc (frames.assign? env name value).isSome
    _ = (frames.owner? name env).isSome := Option.isSome_map
    _ = (frames.lookup? env name).isSome := (frames.isSome_lookup? env name).symm

theorem Reassigned.of_assign? (h : frames.assign? env name value = some frames') :
    frames.Reassigned frames' env name value := by
  obtain ⟨id, howner, rfl⟩ := Option.map_eq_some_iff.mp h
  have hbound := isSome_getIn?_of_owner? howner
  obtain ⟨old, hold⟩ := Option.isSome_iff_exists.mp hbound
  have hvalue := getIn?_bind_self (lt_size_of_getIn? hold) name value
  constructor
  case shared =>
    intro chain hchain
    apply lookup?_of_mem_visited _ hvalue (mem_visited_of_owner? (hchain.trans howner))
    exact fun other hother ↦ getIn?_bind_of_ne (fun h ↦ hother h.2) value
  case unrelated =>
    intro chain other hother
    apply lookup?_congr
    -- for this name the activation is not visited here, since the lookup would end in it
    intro visited hvisited
    apply getIn?_bind_of_ne
    rintro ⟨rfl, rfl⟩
    exact hother ⟨rfl, (owner?_of_mem_visited hvisited hbound).trans howner.symm⟩
  case owner =>
    intro chain other
    apply owner?_congr
    intro visited
    by_cases hsame : other = name ∧ visited = id
    · rw [hsame.1, hsame.2, hvalue, hbound]
      rfl
    · rw [getIn?_bind_of_ne hsame]

theorem Defined.bind (hid : id < frames.cells.size) (name : String) (value : Value) :
    frames.Defined (frames.bind id name value) id name value := by
  constructor
  case visiting =>
    intro chain hvisited
    apply lookup?_of_mem_visited _ (getIn?_bind_self hid name value) hvisited
    exact fun other hother ↦ getIn?_bind_of_ne (fun h ↦ hother h.2) value
  case unrelated =>
    intro chain other hother
    apply lookup?_congr
    intro visited hvisited
    apply getIn?_bind_of_ne
    rintro ⟨rfl, rfl⟩
    exact hother ⟨rfl, hvisited⟩

theorem Hoisted.declare (hid : id < frames.cells.size) (names : List String) :
    frames.Hoisted (frames.declare id names) id names := by
  have hbound (name : String) (h : (frames.getIn? id name).isSome = true) :
      (frames.declare id names).getIn? id name = frames.getIn? id name := by
    rw [getIn?_declare_self hid, Option.or_of_isSome h]
  constructor
  case bound => exact hbound
  case visiting =>
    intro chain name hname hvisited hnone
    apply lookup?_of_mem_visited (fun other hother ↦ getIn?_declare_of_ne hother names name) _
      hvisited
    rw [getIn?_declare_self hid, hnone, if_pos hname, Option.none_or]
  case unrelated =>
    intro chain name hname
    apply lookup?_congr
    intro visited hvisited
    by_cases hself : visited = id
    · subst hself
      rw [getIn?_declare_self hid]
      cases hvalue : frames.getIn? visited name with
      | some value => rfl
      | none => exact if_neg fun hmem ↦ hname ⟨hmem, hvisited, hvalue⟩
    · exact getIn?_declare_of_ne hself names name

/-! ## Entering a function -/

/-- An activation without variables is found by no lookup. -/
theorem lookup?_add_empty (frames : Frames) (env : Env) (name : String) :
    (frames.add {}).2.lookup? env name = frames.lookup? env name := by
  apply lookup?_congr
  intro id _
  by_cases hid : id = frames.cells.size
  · rw [hid, getIn?_add_new, getIn?_size]
    rfl
  · exact getIn?_add_of_ne hid {} name

theorem modify_push (cells : Array Bindings) (bindings : Bindings) (f : Bindings → Bindings) :
    (cells.push bindings).modify cells.size f = cells.push (f bindings) := by
  apply Array.ext_getElem?
  intro i
  rw [Array.getElem?_modify, Array.getElem?_push, Array.getElem?_push]
  by_cases hi : i = cells.size
  · rw [if_pos hi.symm, if_pos hi, if_pos hi]
    rfl
  · rw [if_neg (Ne.symm hi), if_neg hi, if_neg hi]

theorem bindAll_push (frames : Frames) (bindings : Bindings) (entries : List (String × Value)) :
    (frames.add bindings).2.bindAll frames.cells.size entries =
      (frames.add (bindings.setAll entries)).2 := by
  induction entries generalizing bindings with
  | nil => rfl
  | cons entry rest ih =>
    calc (frames.add bindings).2.bindAll frames.cells.size (entry :: rest)
      _ = ((frames.add bindings).2.bind frames.cells.size entry.1 entry.2).bindAll
            frames.cells.size rest := rfl
      _ = (frames.add (bindings.set entry.1 entry.2)).2.bindAll frames.cells.size rest := by
        unfold bind add
        rw [modify_push]
      _ = (frames.add ((bindings.set entry.1 entry.2).setAll rest)).2 := ih _
      _ = (frames.add (bindings.setAll (entry :: rest))).2 := rfl

/-- The variables of a function are those of an activation without variables in which the receiver
and the arguments are defined, and then the declared names hoisted. -/
theorem add_activation (frames : Frames) (receiver : Value) (params : List String)
    (args : List Value) (declared : List String) :
    (frames.add (.activation receiver params args declared)).2 =
      ((frames.add {}).2.bindAll frames.cells.size
        (("this", receiver) :: params.zip args)).declare frames.cells.size declared := by
  rw [bindAll_push]
  unfold declare add
  rw [modify_push]
  rfl

end Frames

/-! ## The operations of a program -/

/-- A run assigns a name as activations do, and fails with nothing changed where they cannot. -/
theorem Run.writeVar_assign (env : Env) (name : String) (value : Value) (st : RunState) :
    Run.writeVar env name value false st =
      match st.frames.assign? env name value with
      | some frames => .ok () { st with frames }
      | none => .error (.failed ⟨.undefinedVariable name, {}⟩) st := by
  rw [Run.writeVar_apply]
  unfold Frames.assign?
  cases howner : st.frames.owner? name env with
  | none => rfl
  | some id => rfl

/-- A name can be assigned exactly where a lookup finds it. The assignment then changes the one
variable that the lookup finds, along all chains on which the name means that variable; it fails
and changes nothing where there is none. A declaration, and the hoisting of some names, concern the
lookups that come by their activation, and hoisting keeps the values that are there. A function is
entered with a new activation that no lookup finds yet, in which the receiver and the arguments are
defined and the declared names are hoisted. -/
theorem scopes_lexical (st : RunState) (name : String) (value : Value) :
    (∀ env, (st.frames.assign? env name value).isSome = (st.frames.lookup? env name).isSome) ∧
      (∀ env frames, st.frames.assign? env name value = some frames →
        Run.writeVar env name value false st = .ok () { st with frames } ∧
          st.frames.Reassigned frames env name value) ∧
      (∀ env, st.frames.assign? env name value = none →
        Run.writeVar env name value false st =
          .error (.failed ⟨.undefinedVariable name, {}⟩) st) ∧
      (∀ id outer, id < st.frames.cells.size → ∃ frames,
        Run.writeVar (id :: outer) name value true st = .ok () { st with frames } ∧
          st.frames.Defined frames id name value) ∧
      (∀ id names, id < st.frames.cells.size →
        st.frames.Hoisted (st.frames.declare id names) id names) ∧
      ∀ receiver params args declared,
        (∀ env other, (st.frames.add {}).2.lookup? env other = st.frames.lookup? env other) ∧
          Run.activate (.activation receiver params args declared) st =
            .ok st.frames.cells.size { st with
              frames := ((st.frames.add {}).2.bindAll st.frames.cells.size
                (("this", receiver) :: params.zip args)).declare st.frames.cells.size
                  declared } := by
  refine ⟨fun env ↦ st.frames.isSome_assign? env name value, ?_, ?_, ?_, ?_, ?_⟩
  · intro env frames h
    constructor
    · rw [Run.writeVar_assign, h]
    · exact .of_assign? h
  · intro env h
    rw [Run.writeVar_assign, h]
  · intro id outer hid
    exact ⟨st.frames.bind id name value, rfl, .bind hid name value⟩
  · intro id names hid
    exact .declare hid names
  · intro receiver params args declared
    constructor
    · exact st.frames.lookup?_add_empty
    · rw [← Frames.add_activation]
      rfl

/-- Two functions around one activation that has a counter, each with an activation of its own. -/
def sharedCounter : RunState where
  frames := ⟨#[⟨[("n", .int 1)]⟩, ⟨[("x", .int 2)]⟩, ⟨[("x", .int 3)]⟩]⟩

/-- The counter that one function writes is read by the other, whose own variable stays. Where the
first function declares a variable of that name, the other one still reads the counter. -/
theorem sharedCounter_assigned :
    (∃ frames, Run.writeVar [1, 0] "n" (.int 7) false sharedCounter =
        .ok () { sharedCounter with frames } ∧
      frames.lookup? [2, 0] "n" = some (.int 7) ∧ frames.lookup? [2, 0] "x" = some (.int 3)) ∧
      Run.writeVar [2] "n" (.int 7) false sharedCounter =
        .error (.failed ⟨.undefinedVariable "n", {}⟩) sharedCounter ∧
      (∃ frames, Run.writeVar [1, 0] "n" (.int 7) true sharedCounter =
          .ok () { sharedCounter with frames } ∧
        frames.lookup? [1, 0] "n" = some (.int 7) ∧ frames.lookup? [2, 0] "n" = some (.int 1)) ∧
      (sharedCounter.frames.declare 1 ["x", "n"]).lookup? [1, 0] "n" = some .undefined ∧
      (sharedCounter.frames.declare 1 ["x", "n"]).lookup? [1, 0] "x" = some (.int 2) := by
  obtain ⟨-, hassign, hfail, hdefine, hhoist, -⟩ := scopes_lexical sharedCounter "n" (.int 7)
  have hone : 1 < sharedCounter.frames.cells.size := by decide
  refine ⟨?_, hfail [2] rfl, ?_, ?_, ?_⟩
  · obtain ⟨hrun, hframes⟩ := hassign [1, 0] _ rfl
    refine ⟨_, hrun, hframes.shared [2, 0] rfl, ?_⟩
    exact hframes.unrelated [2, 0] "x" (by decide)
  · obtain ⟨frames, hrun, hframes⟩ := hdefine 1 [0] hone
    refine ⟨frames, hrun, hframes.visiting [1, 0] (by decide), ?_⟩
    exact hframes.unrelated [2, 0] "n" (by decide)
  · exact (hhoist 1 ["x", "n"] hone).visiting [1, 0] "n" (by decide) (by decide) rfl
  · exact (hhoist 1 ["x", "n"] hone).unrelated [1, 0] "x" fun h ↦ nomatch h.2.2

end TandemScript
