import TandemScript.Proofs.Rules
import TandemScript.Proofs.Tracing

/-!
# Machines that follow the tree

A machine follows a traced computation if it leads to what the computation comes to: behind the code
with the value, or to a failure with the same cause. The line of that failure comes from the table
of the code, that of the failure on the tree from the nodes that it leaves. Both are the line of the
nearest node of the function that has one; where no node has one, the machine takes over the line
that was handed down from outside.
-/

namespace TandemScript

/-! ## Lines and functions of failures -/

/-- A line that says something. -/
def knownLine (line : UInt32) : Option UInt32 :=
  if line = 0 then none else some line

theorem knownLine_lineWithin (e : Expr) (outer : UInt32) :
    knownLine (e.lineWithin outer) = (knownLine e.line <|> knownLine outer) := by
  unfold Expr.lineWithin knownLine
  by_cases hline : e.line = 0 <;> simp [hline]

namespace Failure

theorem line_noteLine (failure : Failure) (line : UInt32) :
    (failure.noteLine line).context.line = (failure.context.line <|> knownLine line) := by
  unfold noteLine knownLine
  by_cases hline : line = 0 <;> simp [hline]

theorem function_noteLine (failure : Failure) (line : UInt32) :
    (failure.noteLine line).context.function = failure.context.function := by
  unfold noteLine
  split <;> rfl

theorem context_notA (expected : String) (records : Records) (found : Value) :
    (notA expected records found).context = {} := by
  cases found <;> rfl

end Failure

namespace Place

variable {place : Place}

theorem function_leaveNode (e : Expr) (place : Place) :
    (place.leaveNode e).function = place.function := by
  unfold leaveNode
  split <;> simp_all

theorem line?_leaveNode (h : place.function = none) (e : Expr) :
    (place.leaveNode e).line? = (place.line? <|> knownLine e.line) := by
  unfold leaveNode line? knownLine
  simp only [h, List.find?_append, Option.map_or]
  by_cases hline : e.line = 0 <;> simp [hline]

theorem leaveNode_of_left {name : String} (h : place.function = some name) (e : Expr) :
    place.leaveNode e = place := by
  unfold leaveNode
  simp only [h]

end Place

/-- A failure of a machine that runs some function and a failure on the tree have the same cause,
and they are located alike. -/
structure Failure.Agrees (function : String) (outer : UInt32) (failure : Failure) (place : Place)
    (found : Failure) : Prop where
  cause : found.cause = failure.cause
  /-- In the function itself, the line that the nodes around it lack is handed down from outside. -/
  inside : place.function = none →
    failure.context.function = none ∧ failure.context.line = place.line? ∧
      found.context.function = some function ∧
        found.context.line = (place.line? <|> knownLine outer)
  /-- In a function that was called from there, it is located for good. -/
  outside : ∀ name, place.function = some name →
    failure.context.function = some name ∧ found.context.function = some name ∧
      ∀ line, place.line? = some line →
        failure.context.line = some line ∧ found.context.line = some line

namespace Failure.Agrees

variable {function name : String} {outer line : UInt32} {failure found : Failure} {place : Place}

/-- The instruction at hand fails, and so does the node that it was emitted for. -/
theorem noted (m : Machine) (i : Instruction) (h : failure.context = {}) :
    failure.Agrees m.function.name line {} (m.noted i line failure) where
  cause := m.cause_noted i line failure
  inside _ := by
    refine ⟨by rw [h], by rw [h]; rfl, ?_, ?_⟩
    · rw [Machine.noted, function_noteLine]
      simp [noteFunction, noteOp, h]
    · rw [Machine.noted, line_noteLine]
      simp [noteFunction, noteOp, h, Place.line?]
  outside name hname := by cases hname

theorem atNode {e : Expr} (h : failure.Agrees function (e.lineWithin outer) place found) :
    (failure.noteLine e.line).Agrees function outer (place.leaveNode e) found where
  cause := h.cause.trans (cause_noteLine failure e.line).symm
  inside hfunction := by
    rw [Place.function_leaveNode] at hfunction
    obtain ⟨hnone, hline, hfound, hfoundLine⟩ := h.inside hfunction
    refine ⟨(function_noteLine _ _).trans hnone, ?_, hfound, ?_⟩
    · rw [line_noteLine, Place.line?_leaveNode hfunction, hline]
    · rw [hfoundLine, Place.line?_leaveNode hfunction, knownLine_lineWithin]
      cases place.line? <;> rfl
  outside name hname := by
    rw [Place.function_leaveNode] at hname
    obtain ⟨hfunction, hfound, hlines⟩ := h.outside name hname
    rw [Place.leaveNode_of_left hname, function_noteLine, line_noteLine]
    refine ⟨hfunction, hfound, fun line hline ↦ ?_⟩
    obtain ⟨hline, hfoundLine⟩ := hlines line hline
    rw [hline]
    exact ⟨rfl, hfoundLine⟩

/-- Outside the function where it happened, a failure is located for good. -/
theorem inFunction (h : failure.Agrees name line place found) (function : String)
    (outer : UInt32) :
    (failure.noteFunction name).Agrees function outer (place.leaveFunction name) found where
  cause := h.cause
  inside hfunction := by
    unfold Place.leaveFunction at hfunction
    cases hplace : place.function <;> simp [hplace] at hfunction
  outside other hother := by
    unfold Place.leaveFunction at hother ⊢
    cases hplace : place.function with
    | none =>
      obtain ⟨hnone, hline, hfound, hfoundLine⟩ := h.inside hplace
      rw [hplace] at hother
      obtain rfl : name = other := Option.some.inj hother
      refine ⟨?_, hfound, fun line hknown ↦ ?_⟩
      · change (failure.context.function <|> some name) = _
        rw [hnone]
        rfl
      · change place.line? = some line at hknown
        rw [hknown] at hline hfoundLine
        exact ⟨hline, hfoundLine⟩
    | some inner =>
      rw [hplace] at hother
      obtain rfl : inner = other := Option.some.inj hother
      obtain ⟨hfunction, hfound, hlines⟩ := h.outside inner hplace
      refine ⟨?_, hfound, hlines⟩
      change (failure.context.function <|> some name) = _
      rw [hfunction]
      rfl

end Failure.Agrees

/-! ## Following a computation -/

theorem Leads.weaken {E E' : Failure → Machine → Prop} {Q : Machine → Prop} {m : Machine}
    (h : Leads E Q m) (hE : ∀ failure m, E failure m → E' failure m) : Leads E' Q m := by
  induction h with
  | arrived h => exact .arrived h
  | step hstep _ ih => exact .step hstep ih
  | failed hstep h => exact .failed hstep (hE _ _ h)

/-- Something ran out in the machine, or it failed as the tree did. -/
def FailsAlike (function : String) (outer : UInt32) (failure : Failure) (place : Place)
    (st : RunState) (found : Failure) (m : Machine) : Prop :=
  m.RanOut found ∨ failure.Agrees function outer place found ∧ m.run.output = st.output

theorem lenient_ranOut : Lenient fun failure m ↦ m.RanOut failure :=
  fun _ _ h ↦ h

theorem lenient_failsAlike (function : String) (outer : UInt32) (failure : Failure) (place : Place)
    (st : RunState) : Lenient (FailsAlike function outer failure place st) :=
  fun _ _ h ↦ .inl h

/-- The machine does what the computation on the tree does: it comes to a state with the condition
for the value, or it fails alike, unless something runs out. Nothing is said where the computation
is cut off, or something runs out on the tree. -/
def Simulates {α : Type} (function : String) (outer : UInt32) (x : Traced α) (st : RunState)
    (Q : α → RunState → Machine → Prop) (m : Machine) : Prop :=
  match x st with
  | .ok a st' => Leads (fun found m' ↦ m'.RanOut found) (Q a st') m
  | .error (.failed failure place) st' =>
    failure.IsExhaustion ∨ Leads (FailsAlike function outer failure place st') (fun _ ↦ False) m
  | .error _ _ => True

namespace Simulates

variable {α β : Type} {function : String} {outer line : UInt32} {x : Traced α}
  {f : α → Traced β} {st st' : RunState} {P Q : α → RunState → Machine → Prop} {m : Machine}

theorem pure {a : α} (h : Q a st m) : Simulates function outer (Pure.pure a) st Q m :=
  Leads.arrived h

theorem of_ok {a : α} (hx : x st = .ok a st')
    (h : Leads (fun found m' ↦ m'.RanOut found) (Q a st') m) :
    Simulates function outer x st Q m := by
  unfold Simulates
  rw [hx]
  exact h

theorem of_failed {failure : Failure} {place : Place}
    (hx : x st = .error (.failed failure place) st')
    (h : Leads (FailsAlike function outer failure place st') (fun _ ↦ False) m) :
    Simulates function outer x st Q m := by
  unfold Simulates
  rw [hx]
  exact .inr h

theorem of_exhausted {failure : Failure} {place : Place}
    (hx : x st = .error (.failed failure place) st') (h : failure.IsExhaustion) :
    Simulates function outer x st Q m := by
  unfold Simulates
  rw [hx]
  exact .inl h

/-- The machine takes steps before the computation begins. -/
theorem after {R : Machine → Prop} (h : Leads (fun found m' ↦ m'.RanOut found) R m)
    (hR : ∀ m', R m' → Simulates function outer x st Q m') : Simulates function outer x st Q m := by
  unfold Simulates at hR ⊢
  cases hx : x st with
  | ok a st' =>
    simp only [hx] at hR
    exact h.trans hR
  | error halt st' =>
    simp only [hx] at hR
    cases halt with
    | failed failure place =>
      -- Whether the tree has run out is the same wherever the machine starts.
      by_cases hexhausted : failure.IsExhaustion
      · exact .inl hexhausted
      · have hrest (m' : Machine) (hm' : R m') := (hR m' hm').resolve_left hexhausted
        exact .inr ((h.weaken fun _ _ ↦ .inl).trans hrest)
    | _ => trivial

/-- The machine takes steps after the computation. -/
theorem followed (h : Simulates function outer x st P m)
    (hQ : ∀ a st' m', P a st' m' → Leads (fun found m' ↦ m'.RanOut found) (Q a st') m') :
    Simulates function outer x st Q m := by
  unfold Simulates at h ⊢
  cases hx : x st with
  | ok a st' =>
    rw [hx] at h
    exact h.trans (hQ a st')
  | error halt st' =>
    rw [hx] at h
    cases halt <;> exact h

theorem mono (h : Simulates function outer x st P m) (hP : ∀ a st' m', P a st' m' → Q a st' m') :
    Simulates function outer x st Q m :=
  h.followed fun a st' m' hm' ↦ .arrived (hP a st' m' hm')

theorem bind {Q : β → RunState → Machine → Prop} (h : Simulates function outer x st P m)
    (hf : ∀ a st' m', P a st' m' → Simulates function outer (f a) st' Q m') :
    Simulates function outer (x >>= f) st Q m := by
  unfold Simulates at h
  cases hx : x st with
  | ok a st' =>
    rw [hx] at h
    have hbind : (x >>= f) st = f a st' := bind_of_ok hx
    have hrest := after h (hf a st')
    unfold Simulates at hrest ⊢
    rw [hbind]
    exact hrest
  | error halt st' =>
    rw [hx] at h
    have hbind : (x >>= f) st = .error halt st' := bind_of_error hx
    unfold Simulates
    rw [hbind]
    cases halt <;> exact h

/-- The computation does something that the machine takes no steps for. -/
theorem bind_ok {a : α} {Q : β → RunState → Machine → Prop} (hx : x st = .ok a st')
    (hf : Simulates function outer (f a) st' Q m) : Simulates function outer (x >>= f) st Q m := by
  have hbind : (x >>= f) st = f a st' := bind_of_ok hx
  unfold Simulates at hf ⊢
  rw [hbind]
  exact hf

/-- A note about failures, if it keeps what they have in common. -/
theorem note {function' : String} {outer' : UInt32} {note : Failure → Failure}
    {move : Place → Place} (hcause : ∀ failure, (note failure).cause = failure.cause)
    (hagrees : ∀ failure place found, failure.Agrees function' outer' place found →
      (note failure).Agrees function outer (move place) found)
    (h : Simulates function' outer' x st Q m) :
    Simulates function outer (x.note note move) st Q m := by
  unfold Simulates at h
  cases hx : x st with
  | ok a st' =>
    rw [hx] at h
    have hnote : x.note note move st = .ok a st' := by
      unfold Traced.note
      rw [hx]
    exact of_ok hnote h
  | error halt st' =>
    rw [hx] at h
    cases halt with
    | failed failure place =>
      have hnote : x.note note move st = .error (.failed (note failure) (move place)) st' := by
        unfold Traced.note
        rw [hx]
      rcases h with ⟨resource, capacity, hexhausted⟩ | hleads
      · exact of_exhausted hnote ⟨resource, capacity, (hcause failure).trans hexhausted⟩
      · refine of_failed hnote (hleads.weaken fun found m' hfound ↦ ?_)
        exact hfound.imp id fun ⟨hfound, houtput⟩ ↦ ⟨hagrees failure place found hfound, houtput⟩
    | _ =>
      unfold Simulates Traced.note
      rw [hx]
      trivial

/-- Inside a node its line is handed down. -/
theorem atNode {e : Expr} (hline : line = e.lineWithin outer)
    (h : Simulates function line x st Q m) : Simulates function outer (x.atNode e) st Q m :=
  h.note (fun failure ↦ failure.cause_noteLine e.line) fun _ _ _ hagrees ↦
    (hline ▸ hagrees).atNode

/-- The body of a function is computed in the function. -/
theorem inFunction {name : String} (h : Simulates name line x st Q m) :
    Simulates function outer (x.inFunction name) st Q m :=
  h.note (fun failure ↦ failure.cause_noteFunction name) fun _ _ _ hagrees ↦
    hagrees.inFunction function outer

/-- A call counts in the depth of calls, and only there. -/
theorem insideCall (h : ∀ depth, Simulates function outer x { st with depth } P m)
    (hP : ∀ a st' m' depth, P a st' m' → Q a { st' with depth } m') :
    Simulates function outer x.insideCall st Q m := by
  by_cases hdepth : st.depth < st.config.nestingLimit
  · have hcall := x.insideCall_of_lt hdepth
    have hbody := h (st.depth + 1)
    unfold Simulates at hbody ⊢
    rw [hcall]
    cases hx : x { st with depth := st.depth + 1 } with
    | ok a st' =>
      simp only [hx] at hbody ⊢
      exact hbody.mono fun m' ↦ hP a st' m' _
    | error halt st' =>
      simp only [hx] at hbody ⊢
      cases halt <;> exact hbody
  · obtain ⟨failure, st', hexhausted, hlimit⟩ := x.insideCall_of_le (Nat.le_of_not_lt hdepth)
    exact of_exhausted hlimit hexhausted

end Simulates

end TandemScript
