import TandemScript.Proofs.CallRules
import TandemScript.Proofs.Heights

/-!
# Progress through emitted code

A sound machine gets through the code of every node: it arrives behind it with one word more on the
stack if the node has a value, and with changes to local variables only if it has none, or it
arrives at a return. On the way it may only fail in ways that are not the fault of the code. Calls
are followed down the stack, which has only so much room below each window.
-/

namespace TandemScript

/-- The failure is not the fault of the code: nothing is inconsistent, or the dictionary is full. -/
def Permitted (failure : Failure) (m : Machine) : Prop :=
  ∀ detail, failure.cause = .inconsistent detail → indexBound ≤ m.run.dict.size

theorem lenient_permitted : Lenient Permitted := by
  rintro failure m (⟨resource, capacity, hcause⟩ | ⟨hcause, hfull⟩) detail hdetail
  · simp [hcause] at hdetail
  · exact hfull

theorem permitted_noted {m m' : Machine} {i : Instruction} {line : UInt32} {failure : Failure}
    (h : ∀ detail, failure.cause ≠ .inconsistent detail) :
    Permitted (m.noted i line failure) m' := by
  intro detail hdetail
  rw [Machine.cause_noted] at hdetail
  exact absurd hdetail (h detail)

theorem Builtin.call_error {records : Records} {op : Builtin} {args : List Value}
    {failure : Failure} {output : String} (h : op.call records args = (.error failure, output))
    (detail : Inconsistency) : failure.cause ≠ .inconsistent detail := by
  rcases Builtin.failure_of_call h with ⟨expected, found, rfl⟩ | rfl | rfl <;> simp [Failure.notA]

/-- The stacks differ in the variables of one window only. -/
structure SameBut (bp slots : Nat) (stack stack' : Array Word) : Prop where
  size : stack'.size = stack.size
  same : ∀ index, index < bp ∨ bp + slots ≤ index → stack'[index]? = stack[index]?

namespace SameBut

variable {bp slots : Nat} {stack stack' stack'' : Array Word}

theorem refl (stack : Array Word) : SameBut bp slots stack stack :=
  ⟨rfl, fun _ _ ↦ rfl⟩

theorem trans (h : SameBut bp slots stack stack') (h' : SameBut bp slots stack' stack'') :
    SameBut bp slots stack stack'' :=
  ⟨h'.size.trans h.size, fun index hindex ↦ (h'.same index hindex).trans (h.same index hindex)⟩

theorem set (stack : Array Word) {slot : Nat} (hslot : slot < slots) (word : Word) :
    SameBut bp slots stack (stack.setIfInBounds (bp + slot) word) where
  size := Array.size_setIfInBounds
  same index hindex := Array.getElem?_setIfInBounds_ne (by omega)

end SameBut

/-- A function that was called goes back to its caller, with the result in the place of the
window. -/
theorem Next.back {p : Program} {E : Failure → Machine → Prop} {Q : Machine → Prop}
    {m m' : Machine} {objects objects' : List Placed} {line line' : UInt32}
    {rest rest' : Fragment} {stack stack' args : Array Word}
    {callee receiver word caller : Word} {slots : Nat} (hs : m.Sound p objects)
    (hcode : m.code.Contains m.pc ((.call (.ofNat args.size), line) :: rest))
    (hstack : m.stack = window stack callee receiver args)
    (hsize : m.stack.size ≤ stack.size + 1 + slots) (hs' : m'.Sound p objects')
    (hbp : m'.bp = stack.size + 1) (hslots : m'.code.slots = slots)
    (hret : m'.code.Contains m'.pc ((.ret, line') :: rest')) (hstack' : m'.stack = stack'.push word)
    (hsame : SameBut (stack.size + 1) slots
      (completed m.stack (stack.size + 1) slots (.small m.bp) (.small (m.pc + 2)) caller) stack')
    (hcaller : m'.run.dict.value caller = .ok (.function m.function))
    (hframe : m.bp ≤ m.stack.size)
    (h : ∀ log m'', m'' = { m' with
        pc := m.pc + 2, bp := m.bp, function := m.function, code := m.code
        run := { m'.run with log }, stack := stack.push word } →
      m''.Sound p objects' → Q m'') : Next E Q m' := by
  have hlinkStart : m'.linkStart = stack.size + 1 + slots := by
    unfold Machine.linkStart
    rw [hbp, hslots]
  have hlink (offset : Nat) : stack'[m'.linkStart + offset]? =
      (completed m.stack (stack.size + 1) slots (.small m.bp) (.small (m.pc + 2))
        caller)[stack.size + 1 + slots + offset]? := by
    rw [hlinkStart]
    exact hsame.same _ (.inr (Nat.le_add_right _ _))
  have hbound := hs.size_le
  have hlinked : m'.Linked stack' m.bp (m.pc + 2) caller := by
    refine ⟨(hlink 0).trans (completed_savedBp hsize ..), (hlink 1).trans
      (completed_savedPc hsize ..), (hlink 2).trans (completed_function hsize ..), ?_, ?_⟩
    · unfold indexBound at hbound
      omega
    · exact Nat.lt_of_le_of_lt (hcode.next_le rfl) (hs.defined.isShort _ hs.code)
  have hback : stack'.shrink (m'.bp - 1) = stack := by
    rw [hbp]
    refine Array.shrink_of_prefix ?_ fun i hi ↦ ?_
    · rw [hsame.size, size_completed hsize]
      omega
    · rw [hsame.same i (.inl (Nat.lt_succ_of_lt hi))]
      refine (completed_below _ _ _ _ _ _ ?_).trans ?_
      · rw [hstack, size_window]
        omega
      · rw [hstack]
        exact window_below _ _ _ _ hi
  refine .ret hs' hret hstack' hlinked (Nat.succ_ne_zero _) (by rw [hbp]; exact Nat.succ_ne_zero _)
    hcaller hs.code ?_
  rintro log m'' rfl hs''
  exact h log _ (by rw [hback]) hs''

namespace Machine

/-- The second machine is sound and in the same activation, at a position and with a stack. -/
structure Reaches (p : Program) (m : Machine) (pc : Nat) (stack : Array Word) (m' : Machine) :
    Prop where
  sound : ∃ objects, m'.Sound p objects
  bp : m'.bp = m.bp
  function : m'.function = m.function
  code : m'.code = m.code
  config : m'.run.config = m.run.config
  grows : m.run.dict.GrowsTo m'.run.dict
  pc : m'.pc = pc
  stack : m'.stack = stack

/-- The second machine is sound and in the same activation, at a return with a result, and the
stack below the result has changed in local variables only. -/
def Returns (p : Program) (m : Machine) (stack : Array Word) (m' : Machine) : Prop :=
  ∃ pc stack' word line rest, SameBut m.bp m.code.slots stack stack' ∧
    m.Reaches p pc (stack'.push word) m' ∧ m.code.Contains pc ((.ret, line) :: rest)

/-- The second machine has one word more on the stack. -/
def Pushes (p : Program) (m : Machine) (pc : Nat) (stack : Array Word) (m' : Machine) : Prop :=
  ∃ word, m.Reaches p pc (stack.push word) m'

/-- The second machine has done with some instructions: it is behind them, or at a return. -/
def Completes (p : Program) (m : Machine) (pc : Nat) (stack : Array Word) (m' : Machine) : Prop :=
  (∃ stack', SameBut m.bp m.code.slots stack stack' ∧ m.Reaches p pc stack' m') ∨
    m.Returns p stack m'

end Machine

/-- Every function that is called with less room than this comes to its return. -/
def Returning (p : Program) (room : Nat) : Prop :=
  ∀ m objects, m.Sound p objects → m.pc = 0 → m.stack.size = m.bp + m.code.slots + linkCells →
    m.stackLimit < m.bp + room → Leads Permitted (m.Returns p m.stack) m

/-- The machine runs code of a site: variables have slots in its window, and calls come back. -/
structure Machine.Hosts (p : Program) (m : Machine) (site : Site) : Prop where
  slots : m.code.HasSlotsOf site
  calls : ∃ room, Returning p room ∧ m.stackLimit ≤ m.bp + room

section Walk

variable {p : Program}

/-- The call of whatever lies in a complete window leaves one word in its place. -/
theorem call_leads {room : Nat} (hcalls : Returning p room) {m : Machine} {objects : List Placed}
    {line : UInt32} {rest : Fragment} {stack args : Array Word} {callee receiver : Word}
    (hs : m.Sound p objects) (hroom : m.stackLimit ≤ m.bp + room)
    (hframe : m.bp + m.code.slots + linkCells ≤ stack.size)
    (hcode : m.code.Contains m.pc ((.call (.ofNat args.size), line) :: rest))
    (hstack : m.stack = window stack callee receiver args) :
    Leads Permitted (m.Pushes p (m.pc + 2) stack) m := by
  have hbp : m.bp ≤ m.stack.size := by
    rw [hstack, size_window]
    unfold linkCells at hframe
    omega
  by_cases hfunction : ∃ f, m.run.dict.value callee = .ok (.function f)
  · obtain ⟨f, hcallee⟩ := hfunction
    cases hf : f.code? with
    | none =>
      obtain ⟨op, rfl⟩ := (hs.knows hcallee).builtin hf
      refine .next <| .callBuiltin lenient_permitted hs hcode hstack hcallee ?_ ?_
      · rintro _ _ _ _ _ word dict _ _ - - hencoded rfl hs'
        exact .arrived ⟨word, ⟨objects, hs'⟩, rfl, rfl, rfl, rfl, hencoded.grows, rfl, rfl⟩
      · rintro _ _ _ failure _ _ - hresult
        exact permitted_noted (Builtin.call_error hresult)
    | some code =>
      have hslots := (hs.knows hcallee).arity_le_slots hf
      refine .next <| .callCompiled lenient_permitted hs hcode hstack hcallee hf hslots hbp ?_
        fun _ ↦ permitted_noted (by simp)
      rintro harity caller dict log m' hgrows hcaller rfl hs'
      have hsize : m.stack.size ≤ stack.size + 1 + code.slots := by
        rw [hstack, size_window]
        omega
      refine (hcalls _ objects hs' rfl (size_completed hsize ..) ?_).trans ?_
      · change m.stackLimit < stack.size + 1 + room
        unfold linkCells at hframe
        omega
      · rintro m'' ⟨pc, stack', word, line', rest', hkeeps, hreach, hret⟩
        obtain ⟨objects', hs''⟩ := hreach.sound
        refine .next <| .back hs hcode hstack hsize hs'' hreach.bp (congrArg Code.slots hreach.code)
          (by rw [hreach.code, hreach.pc]; exact hret) hreach.stack hkeeps
          (hreach.grows.value hcaller) hbp ?_
        rintro log _ rfl hs'''
        exact .arrived ⟨word, ⟨objects', hs'''⟩, rfl, rfl, rfl, hreach.config,
          hgrows.trans hreach.grows, rfl, rfl⟩
  · exact .next <| .callOther hs hcode hstack (not_exists.mp hfunction) fun _ _ _ _ ↦
      permitted_noted (by simp [Failure.notA])

/-! ## Single instructions -/

section Instructions

variable {m m₁ : Machine} {pc : Nat} {stack : Array Word} {line : UInt32} {rest : Fragment}

namespace Machine.Reaches

theorem contains (h : m.Reaches p pc stack m₁) {fragment : Fragment}
    (hcode : m.code.Contains pc fragment) : m₁.code.Contains m₁.pc fragment := by
  rw [h.code, h.pc]
  exact hcode

theorem target_lt (h : m.Reaches p pc stack m₁) {target : Nat}
    (htarget : target ≤ m.code.words.size) : target < UInt32.size := by
  obtain ⟨objects, hs⟩ := h.sound
  exact hs.target_lt (by rw [h.code]; exact htarget)

theorem const (h : m.Reaches p pc stack m₁) {word : Word}
    (hcode : m.code.Contains pc ((.const word, line) :: rest))
    (hword : ∃ value, p.pool.dict.Denotes word value) :
    Leads Permitted (m.Reaches p (pc + 2) (stack.push word)) m₁ := by
  obtain ⟨objects, hs⟩ := h.sound
  obtain ⟨value, hdenotes⟩ := hword
  refine .next <| .const lenient_permitted hs (h.contains hcode)
    ((hdenotes.mono hs.grows).valid _) ?_
  rintro _ rfl hs'
  exact .arrived ⟨⟨objects, hs'⟩, h.bp, h.function, h.code, h.config, h.grows,
    congrArg (· + 2) h.pc, congrArg (·.push word) h.stack⟩

theorem dup {word : Word} (h : m.Reaches p pc (stack.push word) m₁)
    (hcode : m.code.Contains pc ((.dup, line) :: rest)) :
    Leads Permitted (m.Reaches p (pc + 1) ((stack.push word).push word)) m₁ := by
  obtain ⟨objects, hs⟩ := h.sound
  refine .next <| .dup lenient_permitted hs (h.contains hcode) h.stack ?_
  rintro _ rfl hs'
  exact .arrived ⟨⟨objects, hs'⟩, h.bp, h.function, h.code, h.config, h.grows,
    congrArg (· + 1) h.pc, congrArg (·.push word) h.stack⟩

theorem pop {word : Word} (h : m.Reaches p pc (stack.push word) m₁)
    (hcode : m.code.Contains pc ((.pop, line) :: rest)) :
    Leads Permitted (m.Reaches p (pc + 1) stack) m₁ := by
  obtain ⟨objects, hs⟩ := h.sound
  refine .next <| .pop hs (h.contains hcode) h.stack ?_
  rintro _ rfl hs'
  exact .arrived ⟨⟨objects, hs'⟩, h.bp, h.function, h.code, h.config, h.grows,
    congrArg (· + 1) h.pc, rfl⟩

theorem swap {first second : Word} (h : m.Reaches p pc ((stack.push second).push first) m₁)
    (hcode : m.code.Contains pc ((.swap, line) :: rest)) :
    Leads Permitted (m.Reaches p (pc + 1) ((stack.push first).push second)) m₁ := by
  obtain ⟨objects, hs⟩ := h.sound
  refine .next <| .swap hs (h.contains hcode) h.stack ?_
  rintro _ rfl hs'
  exact .arrived ⟨⟨objects, hs'⟩, h.bp, h.function, h.code, h.config, h.grows,
    congrArg (· + 1) h.pc, rfl⟩

theorem goto (h : m.Reaches p pc stack m₁) {target : Nat}
    (hcode : m.code.Contains pc ((.goto (.ofNat target), line) :: rest))
    (htarget : target ≤ m.code.words.size) :
    Leads Permitted (m.Reaches p target stack) m₁ := by
  obtain ⟨objects, hs⟩ := h.sound
  refine .next <| .goto hs (h.contains hcode) (h.target_lt htarget) ?_
  rintro _ rfl hs'
  exact .arrived ⟨⟨objects, hs'⟩, h.bp, h.function, h.code, h.config, h.grows, rfl, h.stack⟩

theorem jumpIfFalse {word : Word} (h : m.Reaches p pc (stack.push word) m₁) {target : Nat}
    (hcode : m.code.Contains pc ((.jumpIfFalse (.ofNat target), line) :: rest))
    (htarget : target ≤ m.code.words.size) :
    Leads Permitted (fun m' ↦ m.Reaches p (pc + 2) stack m' ∨ m.Reaches p target stack m') m₁ := by
  obtain ⟨objects, hs⟩ := h.sound
  refine .next <| .jumpIfFalse hs (h.contains hcode) (h.target_lt htarget) h.stack ?_
  rintro _ rfl hs'
  by_cases hzero : word = Word.zero
  · exact .arrived (.inr ⟨⟨objects, hs'⟩, h.bp, h.function, h.code, h.config, h.grows,
      if_pos hzero, rfl⟩)
  · exact .arrived (.inl ⟨⟨objects, hs'⟩, h.bp, h.function, h.code, h.config, h.grows,
      (if_neg hzero).trans (congrArg (· + 2) h.pc), rfl⟩)

theorem load (h : m.Reaches p pc stack m₁) {slot : Nat}
    (hcode : m.code.Contains pc ((.load (.ofNat slot), line) :: rest))
    (hslot : slot < m.code.slots) (hframe : m.bp + m.code.slots ≤ stack.size) :
    Leads Permitted (m.Pushes p (pc + 2) stack) m₁ := by
  obtain ⟨objects, hs⟩ := h.sound
  refine .next <| .load lenient_permitted hs (h.contains hcode) (by rw [h.code]; exact hslot)
    (by rw [h.bp, h.code, h.stack]; exact hframe) ?_
  rintro word _ - rfl hs'
  exact .arrived ⟨word, ⟨objects, hs'⟩, h.bp, h.function, h.code, h.config, h.grows,
    congrArg (· + 2) h.pc, congrArg (·.push word) h.stack⟩

theorem store {word : Word} (h : m.Reaches p pc (stack.push word) m₁) {slot : Nat}
    (hcode : m.code.Contains pc ((.store (.ofNat slot), line) :: rest))
    (hslot : slot < m.code.slots) (hframe : m.bp + m.code.slots ≤ stack.size) :
    Leads Permitted (m.Reaches p (pc + 2) (stack.setIfInBounds (m.bp + slot) word)) m₁ := by
  obtain ⟨objects, hs⟩ := h.sound
  refine .next <| .store hs (h.contains hcode) (by rw [h.code]; exact hslot)
    (by rw [h.bp, h.code]; exact hframe) h.stack ?_
  rintro _ rfl hs'
  exact .arrived ⟨⟨objects, hs'⟩, h.bp, h.function, h.code, h.config, h.grows,
    congrArg (· + 2) h.pc, congrArg (fun bp ↦ stack.setIfInBounds (bp + slot) word) h.bp⟩

theorem lookup (h : m.Reaches p pc stack m₁) {name : String} {nameWord : Word}
    (hcode : m.code.Contains pc ((.lookup nameWord, line) :: rest))
    (hname : p.pool.dict.value nameWord = .ok (.str name)) :
    Leads Permitted (m.Pushes p (pc + 2) stack) m₁ := by
  obtain ⟨objects, hs⟩ := h.sound
  refine .next <| .lookup lenient_permitted hs (h.contains hcode) (hs.grows.value hname) ?_
  rintro word dict _ hencoded rfl hs'
  exact .arrived ⟨word, ⟨objects, hs'⟩, h.bp, h.function, h.code, h.config,
    h.grows.trans hencoded.grows, congrArg (· + 2) h.pc, congrArg (·.push word) h.stack⟩

theorem register {word : Word} (h : m.Reaches p pc (stack.push word) m₁) {name : String}
    {nameWord : Word} (hcode : m.code.Contains pc ((.register nameWord, line) :: rest))
    (hname : p.pool.dict.value nameWord = .ok (.str name)) :
    Leads Permitted (m.Reaches p (pc + 2) stack) m₁ := by
  obtain ⟨objects, hs⟩ := h.sound
  refine .next <| .register hs (h.contains hcode) (hs.grows.value hname) h.stack ?_
  rintro _ _ _ - - rfl hs'
  exact .arrived ⟨⟨objects, hs'⟩, h.bp, h.function, h.code, h.config, h.grows,
    congrArg (· + 2) h.pc, rfl⟩

theorem get {word : Word} (h : m.Reaches p pc (stack.push word) m₁) {name : String}
    {nameWord : Word} (hcode : m.code.Contains pc ((.get nameWord, line) :: rest))
    (hname : p.pool.dict.value nameWord = .ok (.str name)) :
    Leads Permitted (m.Pushes p (pc + 2) stack) m₁ := by
  obtain ⟨objects, hs⟩ := h.sound
  have hname := hs.grows.value hname
  rcases (hs.of_push h.stack).2.reference_or_plain with ⟨o, ho, hview⟩ | ⟨hplain, value, hvalue⟩
  · refine .next <| .getObject lenient_permitted hs (h.contains hcode) hname h.stack ho hview ?_
    rintro found _ - rfl hs'
    exact .arrived ⟨found, ⟨objects, hs'⟩, h.bp, h.function, h.code, h.config, h.grows,
      congrArg (· + 2) h.pc, rfl⟩
  · refine .next <| .getPlain lenient_permitted hs (h.contains hcode) hname h.stack hvalue hplain ?_
      fun _ ↦ permitted_noted (by simp [Failure.notA])
    rintro - found dict _ hencoded rfl hs'
    exact .arrived ⟨found, ⟨objects, hs'⟩, h.bp, h.function, h.code, h.config,
      h.grows.trans hencoded.grows, congrArg (· + 2) h.pc, rfl⟩

theorem put {receiver word : Word} (h : m.Reaches p pc ((stack.push receiver).push word) m₁)
    {name : String} {nameWord : Word} (hcode : m.code.Contains pc ((.put nameWord, line) :: rest))
    (hname : p.pool.dict.value nameWord = .ok (.str name)) :
    Leads Permitted (m.Reaches p (pc + 2) stack) m₁ := by
  obtain ⟨objects, hs⟩ := h.sound
  have hname := hs.grows.value hname
  have hreceiver := ((hs.of_push h.stack).1.of_push rfl).2
  rcases hreceiver.reference_or_plain with ⟨o, ho, hview⟩ | ⟨hplain, value, hvalue⟩
  · refine .next <| .putObject hs (h.contains hcode) hname h.stack ho hview ?_
      fun _ ↦ permitted_noted (by simp)
    rintro offset - _ rfl hs'
    exact .arrived ⟨⟨objects, hs'⟩, h.bp, h.function, h.code, h.config, h.grows,
      congrArg (· + 2) h.pc, rfl⟩
  · refine .next <| .putPlain hs (h.contains hcode) hname h.stack hvalue hplain ?_
      fun _ _ ↦ permitted_noted (by simp [Failure.notA])
    rintro - _ _ _ - - rfl hs'
    exact .arrived ⟨⟨objects, hs'⟩, h.bp, h.function, h.code, h.config, h.grows,
      congrArg (· + 2) h.pc, rfl⟩

theorem new {fields : Array Word} (h : m.Reaches p pc (stack ++ fields) m₁) {shapeWord : Word}
    {shape : Shape} (hcode : m.code.Contains pc ((.new shapeWord, line) :: rest))
    (hshape : p.pool.dict.shape shapeWord = .ok shape) (hsize : fields.size = shape.size) :
    Leads Permitted (m.Pushes p (pc + 2) stack) m₁ := by
  obtain ⟨objects, hs⟩ := h.sound
  refine .next <| .new lenient_permitted hs (h.contains hcode) (hs.grows.shape hshape) hsize
    h.stack ?_
  rintro reference _ _ _ - rfl hs'
  exact .arrived ⟨reference, ⟨_, hs'⟩, h.bp, h.function, h.code, h.config, h.grows,
    congrArg (· + 2) h.pc, rfl⟩

theorem call {site : Site} (hm : m.Hosts p site) {args : Array Word}
    {callee receiver : Word} {count : Nat}
    (h : m.Reaches p pc (window stack callee receiver args) m₁)
    (hcode : m.code.Contains pc ((.call (.ofNat count), line) :: rest)) (hcount : args.size = count)
    (hframe : m.bp + m.code.slots + linkCells ≤ stack.size) :
    Leads Permitted (m.Pushes p (pc + 2) stack) m₁ := by
  obtain ⟨objects, hs⟩ := h.sound
  obtain ⟨room, hcalls, hroom⟩ := hm.calls
  subst hcount
  have hlimit : m₁.stackLimit = m.stackLimit := congrArg Config.stackCells h.config
  refine (call_leads hcalls hs (by rw [hlimit, h.bp]; exact hroom)
    (by rw [h.bp, h.code]; exact hframe) (h.contains hcode) h.stack).mono ?_
  rintro m' ⟨word, hword⟩
  exact ⟨word, hword.sound, hword.bp.trans h.bp, hword.function.trans h.function,
    hword.code.trans h.code, hword.config.trans h.config, h.grows.trans hword.grows,
    hword.pc.trans (congrArg (· + 2) h.pc), hword.stack⟩

end Machine.Reaches

theorem Machine.Completes.of_same {m' : Machine} {stack' : Array Word}
    (hsame : SameBut m.bp m.code.slots stack stack') (h : m.Completes p pc stack' m') :
    m.Completes p pc stack m' := by
  rcases h with ⟨stack'', hsame', hreach⟩ | ⟨pc', stack'', word, line, rest, hsame', hreach, hret⟩
  · exact .inl ⟨stack'', hsame.trans hsame', hreach⟩
  · exact .inr ⟨pc', stack'', word, line, rest, hsame.trans hsame', hreach, hret⟩

end Instructions

/-! ## Nodes -/

section Nodes

variable {m : Machine}

-- The recursion is on the derivations. Their site is an index, not a parameter: it is taken apart,
-- since arguments that are handed on as they are count as parameters.
mutual

theorem Expr.Emits.value_leads {e : Expr} {site : Site} {start : Nat} {line : UInt32}
    {code : Fragment} {stack : Array Word} {m₁ : Machine}
    (hemits : e.Emits p.pool.dict site start line code) (hm : m.Hosts p site)
    (he : e.isInstruction = false) (hcode : m.code.Contains start code)
    (hframe : m.bp + m.code.slots + linkCells ≤ stack.size) (h : m.Reaches p start stack m₁) :
    Leads Permitted (m.Pushes p (start + code.size) stack) m₁ := by
  obtain ⟨_, _⟩ := site
  cases hemits with
  | literal hdenotes => exact (h.const hcode ⟨_, hdenotes⟩).mono fun _ h ↦ ⟨_, h⟩
  | load hslot =>
    exact h.load hcode (hm.slots _ _ hslot) (Nat.le_trans (Nat.le_add_right _ _) hframe)
  | lookup _ hname => exact h.lookup hcode hname
  | lambda _ hword => exact (h.const hcode ⟨_, .entry hword (by simp)⟩).mono fun _ h ↦ ⟨_, h⟩
  | named _ hword hname =>
    refine (h.const hcode ⟨_, .entry hword (by simp)⟩).trans fun m₂ h₂ ↦ ?_
    refine (h₂.dup (Code.Contains.right (a := [_]) hcode)).trans fun m₃ h₃ ↦ ?_
    exact (h₃.register (Code.Contains.right (a := [_, _]) hcode) hname).mono fun _ h ↦ ⟨_, h⟩
  | @call _ _ _ _ _ _ target operands hcallee htarget hargs =>
    rw [List.append_assoc, List.append_assoc] at hcode
    refine (htarget.value_leads hm hcallee hcode.left hframe h).trans ?_
    rintro m₂ ⟨function, h₂⟩
    refine (h₂.const hcode.right.left ⟨_, .entry p.undefined (by simp)⟩).trans fun m₃ h₃ ↦ ?_
    refine (hargs.lead hm hcode.right.right.left ?_ h₃).trans ?_
    · simp only [Array.size_push]
      omega
    rintro m₄ ⟨words, hcount, h₄⟩
    refine (h₄.call hm hcode.right.right.right hcount hframe).mono fun _ h ↦ ?_
    simp only [Fragment.size_append, Nat.add_assoc] at h ⊢
    exact h
  | object hfields hshape =>
    refine (hfields.lead hm hcode.left hframe h).trans ?_
    rintro m₂ ⟨words, hcount, h₂⟩
    refine (h₂.new hcode.right hshape hcount).mono fun _ h ↦ ?_
    simp only [Fragment.size_append, Nat.add_assoc] at h ⊢
    exact h
  | field hreceiver htarget hname =>
    refine (htarget.value_leads hm hreceiver hcode.left hframe h).trans ?_
    rintro m₂ ⟨word, h₂⟩
    refine (h₂.get hcode.right hname).mono fun _ h ↦ ?_
    simp only [Fragment.size_append, Nat.add_assoc] at h ⊢
    exact h
  | @method _ _ _ _ _ _ _ target operands _ hreceiver htarget hname hargs =>
    rw [List.append_assoc, List.append_assoc] at hcode
    have hlookup := hcode.right
    refine (htarget.value_leads hm hreceiver hcode.left hframe h).trans ?_
    rintro m₂ ⟨word, h₂⟩
    refine (h₂.dup hlookup).trans fun m₃ h₃ ↦ ?_
    refine (h₃.get (Code.Contains.right (a := [_]) hlookup) hname).trans ?_
    rintro m₄ ⟨function, h₄⟩
    refine (h₄.swap (Code.Contains.right (a := [_, _]) hlookup)).trans fun m₅ h₅ ↦ ?_
    refine (hargs.lead hm hcode.right.right.left ?_ h₅).trans ?_
    · simp only [Array.size_push]
      omega
    rintro m₆ ⟨words, hcount, h₆⟩
    refine (h₆.call hm hcode.right.right.right hcount hframe).mono fun _ h ↦ ?_
    simp only [Fragment.size_append, Nat.add_assoc] at h ⊢
    exact h
  | block _ | assign _ _ _ | ret _ _ | cond _ _ _ _ _ _ | setField _ _ _ _ _ => cases he

theorem EmitsArgs.lead {es : List Expr} {site : Site} {start : Nat} {line : UInt32}
    {code : Fragment} {stack : Array Word} {m₁ : Machine}
    (hemits : EmitsArgs p.pool.dict site start line es code) (hm : m.Hosts p site)
    (hcode : m.code.Contains start code)
    (hframe : m.bp + m.code.slots + linkCells ≤ stack.size) (h : m.Reaches p start stack m₁) :
    Leads Permitted (fun m' ↦ ∃ words, Array.size words = es.length ∧
      m.Reaches p (start + code.size) (stack ++ words) m') m₁ := by
  obtain ⟨_, _⟩ := site
  cases hemits with
  | nil => exact .arrived ⟨#[], rfl, by rw [Array.append_empty]; exact h⟩
  | cons he hcode' hrest =>
    refine (hcode'.value_leads hm he hcode.left hframe h).trans ?_
    rintro m₂ ⟨word, h₂⟩
    refine (hrest.lead hm hcode.right ?_ h₂).mono ?_
    · rw [Array.size_push]
      omega
    rintro m₃ ⟨words, hcount, h₃⟩
    refine ⟨#[word] ++ words, ?_, ?_⟩
    · rw [Array.size_append, hcount, List.length_cons, Nat.add_comm]
      rfl
    · rw [← Array.append_assoc, Array.append_singleton, Fragment.size_append, ← Nat.add_assoc]
      exact h₃

theorem EmitsFields.lead {fields : List (String × Expr)} {site : Site} {start : Nat}
    {line : UInt32} {code : Fragment} {stack : Array Word} {m₁ : Machine}
    (hemits : EmitsFields p.pool.dict site start line fields code) (hm : m.Hosts p site)
    (hcode : m.code.Contains start code)
    (hframe : m.bp + m.code.slots + linkCells ≤ stack.size) (h : m.Reaches p start stack m₁) :
    Leads Permitted (fun m' ↦ ∃ words,
      Array.size words = (Shape.ofKeys (fields.map Prod.fst)).size ∧
      m.Reaches p (start + code.size) (stack ++ words) m') m₁ := by
  obtain ⟨_, _⟩ := site
  cases hemits with
  | nil => exact .arrived ⟨#[], rfl, by rw [Array.append_empty]; exact h⟩
  | dropped hkey he hcode' hrest =>
    rw [List.append_assoc] at hcode
    refine (hcode'.value_leads hm he hcode.left hframe h).trans ?_
    rintro m₂ ⟨word, h₂⟩
    refine (h₂.pop hcode.right).trans fun m₃ h₃ ↦ ?_
    refine (hrest.lead hm hcode.right.right hframe h₃).mono ?_
    rintro m₄ ⟨words, hcount, h₄⟩
    refine ⟨words, ?_, ?_⟩
    · rw [hcount, List.map_cons, Shape.size_ofKeys_dropped hkey]
    · simp only [Fragment.size_append, Nat.add_assoc] at h₄ ⊢
      exact h₄
  | kept hkey he hcode' hrest =>
    refine (hcode'.value_leads hm he hcode.left hframe h).trans ?_
    rintro m₂ ⟨word, h₂⟩
    refine (hrest.lead hm hcode.right ?_ h₂).mono ?_
    · rw [Array.size_push]
      omega
    rintro m₃ ⟨words, hcount, h₃⟩
    refine ⟨#[word] ++ words, ?_, ?_⟩
    · rw [Array.size_append, hcount, List.map_cons, Shape.size_ofKeys_kept hkey, Nat.add_comm]
      rfl
    · rw [← Array.append_assoc, Array.append_singleton, Fragment.size_append, ← Nat.add_assoc]
      exact h₃

end

mutual

theorem Expr.Emits.completes {e : Expr} {site : Site} {start : Nat} {line : UInt32}
    {code : Fragment} {stack : Array Word} {m₁ : Machine}
    (hemits : e.Emits p.pool.dict site start line code) (hm : m.Hosts p site)
    (he : e.isInstruction = true) (hcode : m.code.Contains start code)
    (hframe : m.bp + m.code.slots + linkCells ≤ stack.size) (h : m.Reaches p start stack m₁) :
    Leads Permitted (m.Completes p (start + code.size) stack) m₁ := by
  obtain ⟨_, _⟩ := site
  cases hemits with
  | block hbody => exact hbody.completes hm hcode hframe h
  | assign hslot hvalue hemits =>
    refine (hemits.value_leads hm hvalue hcode.left hframe h).trans ?_
    rintro m₂ ⟨word, h₂⟩
    refine (h₂.store hcode.right (hm.slots _ _ hslot)
      (Nat.le_trans (Nat.le_add_right _ _) hframe)).mono fun _ h ↦ ?_
    refine .inl ⟨_, .set stack (hm.slots _ _ hslot) word, ?_⟩
    simp only [Fragment.size_append, Nat.add_assoc] at h ⊢
    exact h
  | setField hreceiver htarget hvalue hemits hname =>
    rw [List.append_assoc] at hcode
    refine (htarget.value_leads hm hreceiver hcode.left hframe h).trans ?_
    rintro m₂ ⟨target, h₂⟩
    refine (hemits.value_leads hm hvalue hcode.right.left ?_ h₂).trans ?_
    · rw [Array.size_push]
      omega
    rintro m₃ ⟨word, h₃⟩
    refine (h₃.put hcode.right.right hname).mono fun _ h ↦ .inl ⟨stack, .refl stack, ?_⟩
    simp only [Fragment.size_append, Nat.add_assoc] at h ⊢
    exact h
  | @cond _ _ _ _ _ _ _ decision whenTrue whenFalse _ _ htest hdecision hTrue hatFalse hFalse
      hafter =>
    subst hatFalse hafter
    simp only [List.append_assoc] at hcode
    have hjump := hcode.right
    have hgoto := hjump.right.right
    have hend := hgoto.right.le_size
    refine (hdecision.value_leads hm htest hcode.left hframe h).trans ?_
    rintro m₂ ⟨word, h₂⟩
    refine (h₂.jumpIfFalse hjump (Nat.le_trans (Nat.le_add_right _ _) hend)).trans ?_
    rintro m₃ (h₃ | h₃)
    · refine (hTrue.completes hm hjump.right.left hframe h₃).trans ?_
      rintro m₄ (⟨stack', hsame, h₄⟩ | hreturns)
      · refine (h₄.goto hgoto hend).mono fun _ h ↦ .inl ⟨stack', hsame, ?_⟩
        simp only [Fragment.size_append, Nat.add_assoc] at h ⊢
        exact h
      · exact .arrived (.inr hreturns)
    · refine (hFalse.completes hm hgoto.right hframe h₃).mono fun _ h ↦ ?_
      simp only [Fragment.size_append, Nat.add_assoc] at h ⊢
      exact h
  | ret hvalue hemits =>
    refine (hemits.value_leads hm hvalue hcode.left hframe h).mono ?_
    rintro m₂ ⟨word, h₂⟩
    exact .inr ⟨_, stack, word, _, _, .refl stack, h₂, hcode.right⟩
  | literal _ | load _ | lookup _ _ | lambda _ _ | named _ _ _ | call _ _ _ | object _ _
  | field _ _ _ | method _ _ _ _ => cases he

theorem Block.Emits.completes {body : Block} {site : Site} {start : Nat} {line : UInt32}
    {code : Fragment} {stack : Array Word} {m₁ : Machine}
    (hemits : body.Emits p.pool.dict site start line code) (hm : m.Hosts p site)
    (hcode : m.code.Contains start code)
    (hframe : m.bp + m.code.slots + linkCells ≤ stack.size) (h : m.Reaches p start stack m₁) :
    Leads Permitted (m.Completes p (start + code.size) stack) m₁ := by
  obtain ⟨_, _⟩ := site
  cases hemits with
  | mk hinstrs => exact hinstrs.complete hm hcode hframe h

theorem EmitsInstrs.complete {es : List Expr} {site : Site} {start : Nat} {line : UInt32}
    {code : Fragment} {stack : Array Word} {m₁ : Machine}
    (hemits : EmitsInstrs p.pool.dict site start line es code) (hm : m.Hosts p site)
    (hcode : m.code.Contains start code)
    (hframe : m.bp + m.code.slots + linkCells ≤ stack.size) (h : m.Reaches p start stack m₁) :
    Leads Permitted (m.Completes p (start + code.size) stack) m₁ := by
  obtain ⟨_, _⟩ := site
  cases hemits with
  | nil => exact .arrived (.inl ⟨stack, .refl stack, h⟩)
  | instruction he hemits hrest =>
    refine (hemits.completes hm he hcode.left hframe h).trans ?_
    rintro m₂ (⟨stack', hsame, h₂⟩ | hreturns)
    · refine (hrest.complete hm hcode.right (by rw [hsame.size]; exact hframe) h₂).mono
        fun _ h ↦ .of_same hsame ?_
      simp only [Fragment.size_append, Nat.add_assoc] at h ⊢
      exact h
    · exact .arrived (.inr hreturns)
  | value he hemits hrest =>
    rw [List.append_assoc] at hcode
    refine (hemits.value_leads hm he hcode.left hframe h).trans ?_
    rintro m₂ ⟨word, h₂⟩
    refine (h₂.pop hcode.right).trans fun m₃ h₃ ↦ ?_
    refine (hrest.complete hm hcode.right.right hframe h₃).mono fun _ h ↦ ?_
    simp only [Fragment.size_append, Nat.add_assoc] at h ⊢
    exact h

end

end Nodes

end Walk

end TandemScript
