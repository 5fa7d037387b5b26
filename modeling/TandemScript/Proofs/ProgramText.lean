import Mathlib.Data.List.Nodup
import TandemScript.Proofs.Spelling
import TandemScript.Syntax.Format

/-!
# Texts of programs

A program is read back from its own text when that text nests no deeper than the reader goes.
Programs that were read never nest too deeply: what a reader skips or fills in only makes the text
that it read larger, and each node is written with the arrays and objects that it was read from.
-/

namespace TandemScript

namespace Json

/-! ## Nesting -/

mutual

/-- The largest number of arrays and objects that are open at once. -/
def nesting : Json → Nat
  | .array items => itemsNesting items + 1
  | .object fields => fieldsNesting fields + 1
  | _ => 0

def itemsNesting : List Json → Nat
  | [] => 0
  | item :: rest => max item.nesting (itemsNesting rest)

def fieldsNesting : List (Option String × Json) → Nat
  | [] => 0
  | (_, value) :: rest => max value.nesting (fieldsNesting rest)

end

theorem itemsNesting_le {items : List Json} {n : Nat} :
    itemsNesting items ≤ n ↔ ∀ item ∈ items, item.nesting ≤ n := by
  induction items with
  | nil => simp [itemsNesting]
  | cons item rest ih => rw [itemsNesting, Nat.max_le, ih, List.forall_mem_cons]

theorem fieldsNesting_le {fields : List (Option String × Json)} {n : Nat} :
    fieldsNesting fields ≤ n ↔ ∀ field ∈ fields, field.2.nesting ≤ n := by
  induction fields with
  | nil => simp [fieldsNesting]
  | cons field rest ih => rw [fieldsNesting, Nat.max_le, ih, List.forall_mem_cons]

theorem succ_le_iff_exists {k n : Nat} : k + 1 ≤ n ↔ ∃ m, n = m + 1 ∧ k ≤ m := by
  constructor
  · intro h
    exact ⟨n - 1, by omega, by omega⟩
  · rintro ⟨m, rfl, h⟩
    exact Nat.succ_le_succ h

theorem nesting_array_le {items : List Json} {n : Nat} :
    (array items).nesting ≤ n ↔ ∃ m, n = m + 1 ∧ ∀ item ∈ items, item.nesting ≤ m := by
  simp only [nesting, ← itemsNesting_le]
  exact succ_le_iff_exists

theorem record_eq (fields : List (String × Json)) :
    record fields = .object (fields.map fun field ↦ (some field.1, field.2)) := rfl

theorem nesting_record_le {fields : List (String × Json)} {n : Nat} :
    (record fields).nesting ≤ n ↔ ∃ m, n = m + 1 ∧ ∀ field ∈ fields, field.2.nesting ≤ m := by
  have hfields : ∀ m, fieldsNesting (fields.map fun field ↦ (some field.1, field.2)) ≤ m ↔
      ∀ field ∈ fields, field.2.nesting ≤ m := by
    intro m
    rw [fieldsNesting_le, List.forall_mem_map]
  simp only [record_eq, nesting, ← hfields]
  exact succ_le_iff_exists

theorem nesting_singleton_le {key : String} {value : Json} {n : Nat} :
    (record [(key, value)]).nesting ≤ n ↔ ∃ m, n = m + 1 ∧ value.nesting ≤ m := by
  simp only [nesting_record_le, List.forall_mem_singleton]

@[simp]
theorem nesting_text (s : String) : (text s).nesting = 0 := rfl

@[simp]
theorem nesting_bool (b : Bool) : (bool b).nesting = 0 := rfl

@[simp]
theorem nesting_lineField (line : UInt32) : (lineField line).2.nesting = 0 := rfl

@[simp]
theorem nesting_name (name : Option String) : ((name.map text).getD .null).nesting = 0 := by
  cases name <;> rfl

@[simp]
theorem nesting_texts (items : List String) : (texts items).nesting = 1 := by
  have hitems : itemsNesting (items.map text) ≤ 0 := by
    rw [itemsNesting_le, List.forall_mem_map]
    exact fun _ _ ↦ Nat.le_refl 0
  rw [texts, nesting, Nat.le_zero.mp hitems]

/-! ## Exactness -/

theorem itemsAreExact_iff {items : List Json} :
    itemsAreExact items ↔ ∀ item ∈ items, item.IsExact := by
  induction items with
  | nil => simp [itemsAreExact]
  | cons item rest ih => rw [itemsAreExact, ih, List.forall_mem_cons]

theorem isExact_record {fields : List (String × Json)} :
    (record fields).IsExact ↔ ∀ field ∈ fields, field.2.IsExact := by
  rw [record_eq, IsExact]
  induction fields with
  | nil => simp [fieldsAreExact]
  | cons field rest ih => simp [fieldsAreExact, ih]

theorem isExact_singleton {key : String} {value : Json} :
    (record [(key, value)]).IsExact ↔ value.IsExact := by
  rw [isExact_record, List.forall_mem_singleton]

@[simp]
theorem isExact_text (s : String) : (text s).IsExact := trivial

@[simp]
theorem isExact_bool (b : Bool) : (bool b).IsExact := trivial

@[simp]
theorem isExact_lineField (line : UInt32) : (lineField line).2.IsExact := trivial

@[simp]
theorem isExact_name (name : Option String) : ((name.map text).getD .null).IsExact := by
  cases name <;> trivial

@[simp]
theorem isExact_texts (items : List String) : (texts items).IsExact := by
  rw [texts, IsExact, itemsAreExact_iff, List.forall_mem_map]
  exact fun _ _ ↦ trivial

/-! ## Parts -/

/-- Where no key is repeated, each field is found by its key. -/
theorem find?_key {fields : List (String × Json)} (h : (fields.map Prod.fst).Nodup)
    {field : String × Json} (hfield : field ∈ fields) :
    (fields.map fun field ↦ (some field.1, field.2)).find? (·.1 == some field.1) =
      some (some field.1, field.2) := by
  induction fields with
  | nil => cases hfield
  | cons first rest ih =>
    rw [List.map_cons, List.nodup_cons] at h
    rw [List.map_cons]
    rcases List.mem_cons.mp hfield with rfl | hrest
    · exact List.find?_cons_of_pos (beq_self_eq_true _)
    · have hne : first.1 ≠ field.1 := fun heq ↦ h.1 (heq ▸ List.mem_map_of_mem hrest)
      rw [List.find?_cons_of_neg (by simpa using hne), ih h.2 hrest]

/-- The parts of a record are read in the order in which they stand there. -/
theorem parts?_record (fields : List (String × Json)) {names : List String}
    (hnames : fields.map Prod.fst = names) (h : names.Nodup) :
    (record fields).parts? names = some (fields.map fun field ↦ some field.2) := by
  subst hnames
  have hkeys : (fields.map fun field ↦ (some field.1, field.2)).mapM Prod.fst =
      some (fields.map Prod.fst) := by
    induction fields with
    | nil => rfl
    | cons field rest ih =>
      rw [List.map_cons, List.mapM_cons, ih (List.nodup_cons.mp h).2]
      rfl
  have hcount : ((fields.map Prod.fst).any fun name ↦ 1 < (fields.map Prod.fst).count name) =
      false := by
    rw [List.any_eq_false]
    intro name _
    simpa using List.nodup_iff_count_le_one.mp h name
  change knownFields? _ (fields.map fun field ↦ (some field.1, field.2)) = _
  unfold knownFields?
  rw [hkeys]
  simp only [Option.bind_eq_bind, Option.bind_some, hcount]
  refine congrArg some ?_
  rw [List.map_map]
  refine List.map_congr_left fun field hfield ↦ ?_
  rw [Function.comp_apply, find?_key h hfield]
  rfl

theorem parts?_bind {α : Type} (fields : List (String × Json)) {names : List String}
    (hnames : fields.map Prod.fst = names) (h : names.Nodup) (f : List (Option Json) → Option α) :
    (record fields).parts? names >>= f = f (fields.map fun field ↦ some field.2) := by
  rw [parts?_record fields hnames h]
  rfl

@[simp]
theorem int32?_toInt (n : Int32) : int32? (.integer n.toInt) = some n := by
  change (if _ then some (Int32.ofInt n.toInt) else none) = some n
  rw [if_pos ⟨n.minValue_le_toInt, n.toInt_le⟩, Int32.ofInt_toInt]

@[simp]
theorem line?_natural (line : UInt32) : line? (some (.natural line.toNat)) = some line := by
  change UInt32.ofNat <$> (if line.toNat < 2 ^ 32 then some line.toNat else none) = _
  rw [if_pos line.toNat_lt, Option.map_eq_map, Option.map_some, UInt32.ofNat_toNat]

@[simp]
theorem text?_text (s : String) : (text s).text? = some s := rfl

@[simp]
theorem bool?_bool (b : Bool) : (bool b).bool? = some b := rfl

@[simp]
theorem texts?_texts (items : List String) : (texts items).texts? = some items := by
  change (items.map text).mapM text? = some items
  induction items with
  | nil => rfl
  | cons item rest ih =>
    rw [List.map_cons, List.mapM_cons, ih]
    rfl

@[simp]
theorem name?_written (name : Option String) :
    name? (some ((name.map text).getD .null)) = some name := by
  cases name <;> rfl

end Json

theorem Json.exists_nesting_node {n : Nat} {kind : String} {parts : List (String × Json)}
    (h : (Json.record [(kind, .record parts)]).nesting ≤ n) :
    ∃ m, n = m + 2 ∧ ∀ part ∈ parts, part.2.nesting ≤ m := by
  obtain ⟨_, rfl, hkind⟩ := Json.nesting_singleton_le.mp h
  obtain ⟨m, rfl, hparts⟩ := Json.nesting_record_le.mp hkind
  exact ⟨m, rfl, hparts⟩

theorem Json.nesting_node_le {n : Nat} {kind : String} {parts : List (String × Json)}
    (h : ∀ part ∈ parts, part.2.nesting ≤ n) :
    (Json.record [(kind, .record parts)]).nesting ≤ n + 2 :=
  Json.nesting_singleton_le.mpr ⟨n + 1, rfl, Json.nesting_record_le.mpr ⟨n, rfl, h⟩⟩

theorem Json.isExact_node {kind : String} {parts : List (String × Json)}
    (h : ∀ part ∈ parts, part.2.IsExact) : (Json.record [(kind, .record parts)]).IsExact :=
  Json.isExact_singleton.mpr (Json.isExact_record.mpr h)

/-! ## Programs and values -/

@[simp]
theorem Literal.ofJson?_toJson (value : Literal) : Literal.ofJson? value.toJson = some value := by
  cases value with
  | int n => exact congrArg (Option.map int) (Json.int32?_toInt n)
  | str s => rfl

@[simp]
theorem Literal.nesting_toJson (value : Literal) : value.toJson.nesting = 1 := by
  cases value <;> rfl

@[simp]
theorem Literal.isExact_toJson (value : Literal) : value.toJson.IsExact := by
  cases value <;> exact Json.isExact_singleton.mpr trivial

mutual

/-- A node is read back where there is room for its nesting. -/
theorem Expr.ofJson?_toJson (e : Expr) {n : Nat} (h : e.toJson.nesting ≤ n) :
    Expr.ofJson? n e.toJson = some e := by
  match e with
  | .block body =>
    obtain ⟨m, rfl, hbody⟩ := Json.nesting_singleton_le.mp h
    exact congrArg (Option.map Expr.block) (Block.ofJson?_toJson body hbody)
  | .literal value line =>
    obtain ⟨m, rfl, hparts⟩ := Json.exists_nesting_node h
    simp only [List.forall_mem_cons] at hparts
    have hroom : m ≠ 0 := by
      rw [Literal.nesting_toJson] at hparts
      omega
    refine (Json.parts?_bind [("value", _), ("line", _)] (by rfl) (by decide) _).trans ?_
    simp [hroom]
  | .var name line =>
    obtain ⟨m, rfl, hparts⟩ := Json.exists_nesting_node h
    refine (Json.parts?_bind [("name", _), ("line", _)] (by rfl) (by decide) _).trans ?_
    simp
  | .assign name value declares line =>
    obtain ⟨m, rfl, hparts⟩ := Json.exists_nesting_node h
    simp only [List.forall_mem_cons] at hparts
    have hvalue := Expr.ofJson?_toJson value hparts.2.1
    refine (Json.parts?_bind [("name", _), ("expr", _), ("declaration", _), ("line", _)] (by rfl)
      (by decide) _).trans ?_
    simp [hvalue]
  | .function name params body line =>
    obtain ⟨m, rfl, hparts⟩ := Json.exists_nesting_node h
    simp only [List.forall_mem_cons] at hparts
    have hroom : m ≠ 0 := by
      rw [Json.nesting_texts] at hparts
      omega
    have hbody := Block.ofJson?_toJson body hparts.2.2.1
    refine (Json.parts?_bind [("name", _), ("parameters", _), ("body", _), ("line", _)] (by rfl)
      (by decide) _).trans ?_
    simp [hroom, hbody]
  | .call callee args line =>
    obtain ⟨m, rfl, hparts⟩ := Json.exists_nesting_node h
    simp only [List.forall_mem_cons] at hparts
    have hcallee := Expr.ofJson?_toJson callee hparts.1
    have hargs := exprsOfJson?_toJson args hparts.2.1
    refine (Json.parts?_bind [("qualifier", _), ("args", _), ("line", _)] (by rfl)
      (by decide) _).trans ?_
    simp [hcallee, hargs]
  | .ret value line =>
    obtain ⟨m, rfl, hparts⟩ := Json.exists_nesting_node h
    simp only [List.forall_mem_cons] at hparts
    have hvalue := Expr.ofJson?_toJson value hparts.1
    refine (Json.parts?_bind [("expr", _), ("line", _)] (by rfl) (by decide) _).trans ?_
    simp [hvalue]
  | .cond test onTrue onFalse line =>
    obtain ⟨m, rfl, hparts⟩ := Json.exists_nesting_node h
    simp only [List.forall_mem_cons] at hparts
    have htest := Expr.ofJson?_toJson test hparts.1
    have honTrue := Block.ofJson?_toJson onTrue hparts.2.1
    have honFalse := Block.ofJson?_toJson onFalse hparts.2.2.1
    refine (Json.parts?_bind [("condition", _), ("true_block", _), ("false_block", _), ("line", _)]
      (by rfl) (by decide) _).trans ?_
    simp [htest, honTrue, honFalse]
  | .object fields line =>
    obtain ⟨m, rfl, hparts⟩ := Json.exists_nesting_node h
    simp only [List.forall_mem_cons] at hparts
    have hfields := fieldsOfJson?_toJson fields hparts.1
    refine (Json.parts?_bind [("init", _), ("line", _)] (by rfl) (by decide) _).trans ?_
    simp [hfields]
  | .field receiver name line =>
    obtain ⟨m, rfl, hparts⟩ := Json.exists_nesting_node h
    simp only [List.forall_mem_cons] at hparts
    have hreceiver := Expr.ofJson?_toJson receiver hparts.1
    refine (Json.parts?_bind [("receiver", _), ("name", _), ("line", _)] (by rfl)
      (by decide) _).trans ?_
    simp [hreceiver]
  | .setField receiver name value line =>
    obtain ⟨m, rfl, hparts⟩ := Json.exists_nesting_node h
    simp only [List.forall_mem_cons] at hparts
    have hreceiver := Expr.ofJson?_toJson receiver hparts.1
    have hvalue := Expr.ofJson?_toJson value hparts.2.2.1
    refine (Json.parts?_bind [("receiver", _), ("name", _), ("expr", _), ("line", _)] (by rfl)
      (by decide) _).trans ?_
    simp [hreceiver, hvalue]
  | .method receiver name args line =>
    obtain ⟨m, rfl, hparts⟩ := Json.exists_nesting_node h
    simp only [List.forall_mem_cons] at hparts
    have hreceiver := Expr.ofJson?_toJson receiver hparts.1
    have hargs := exprsOfJson?_toJson args hparts.2.2.1
    refine (Json.parts?_bind [("receiver", _), ("name", _), ("args", _), ("line", _)] (by rfl)
      (by decide) _).trans ?_
    simp [hreceiver, hargs]

theorem Block.ofJson?_toJson (body : Block) {n : Nat} (h : body.toJson.nesting ≤ n) :
    Block.ofJson? n body.toJson = some body := by
  match body with
  | .mk instrs line =>
    obtain ⟨m, rfl, hparts⟩ := Json.nesting_record_le.mp h
    simp only [List.forall_mem_cons] at hparts
    have hinstrs := exprsOfJson?_toJson instrs hparts.1
    refine (Json.parts?_bind [("instrs", _), ("line", _)] (by rfl) (by decide) _).trans ?_
    simp [hinstrs]

theorem exprsOfJson?_toJson (exprs : List Expr) {n : Nat}
    (h : (Json.array (exprsToJson exprs)).nesting ≤ n) :
    exprsOfJson? n (.array (exprsToJson exprs)) = some exprs := by
  obtain ⟨m, rfl, hexprs⟩ := Json.nesting_array_le.mp h
  exact mapM_exprsToJson exprs hexprs

theorem mapM_exprsToJson (exprs : List Expr) {n : Nat}
    (h : ∀ item ∈ exprsToJson exprs, item.nesting ≤ n) :
    (exprsToJson exprs).mapM (Expr.ofJson? n) = some exprs := by
  match exprs with
  | [] => rfl
  | e :: rest =>
    unfold exprsToJson at h ⊢
    rw [List.forall_mem_cons] at h
    rw [List.mapM_cons, Expr.ofJson?_toJson e h.1, mapM_exprsToJson rest h.2]
    rfl

theorem fieldsOfJson?_toJson (fields : List (String × Expr)) {n : Nat}
    (h : (Json.array (fieldsToJson fields)).nesting ≤ n) :
    fieldsOfJson? n (.array (fieldsToJson fields)) = some fields := by
  obtain ⟨m, rfl, hfields⟩ := Json.nesting_array_le.mp h
  exact mapM_fieldsToJson fields hfields

theorem mapM_fieldsToJson (fields : List (String × Expr)) {n : Nat}
    (h : ∀ item ∈ fieldsToJson fields, item.nesting ≤ n) :
    (fieldsToJson fields).mapM (fieldOfJson? n) = some fields := by
  match fields with
  | [] => rfl
  | (key, value) :: rest =>
    unfold fieldsToJson at h ⊢
    rw [List.forall_mem_cons, Json.nesting_array_le] at h
    obtain ⟨⟨m, rfl, hpair⟩, hrest⟩ := h
    simp only [List.forall_mem_cons] at hpair
    have hvalue := Expr.ofJson?_toJson value hpair.2.1
    rw [List.mapM_cons, mapM_fieldsToJson rest hrest]
    simp [fieldOfJson?, hvalue]

end

/-! ## Nesting of what was read -/

mutual

/-- A node that was read nests no deeper than the reader went. -/
theorem Expr.nesting_of_ofJson? {n : Nat} {json : Json} {e : Expr}
    (h : Expr.ofJson? n json = some e) : e.toJson.nesting ≤ n := by
  unfold Expr.ofJson? at h
  split at h
  · next n parts =>
    obtain ⟨body, hbody, rfl⟩ := Option.map_eq_some_iff.mp h
    exact Json.nesting_singleton_le.mpr ⟨n, rfl, Block.nesting_of_ofJson? hbody⟩
  · next n kind parts _ =>
    split at h
    -- Parts that are missing leave the second case of each kind.
    all_goals
      simp only [Option.bind_eq_bind, Option.bind_eq_some_iff, reduceCtorEq] at h
    all_goals
      obtain ⟨_, -, h⟩ := h
      split at h
      case h_2 => cases h
    · split at h
      · cases h
      · next hroom =>
        simp only [Option.bind_eq_some_iff, Option.pure_def, Option.some.injEq] at h
        obtain ⟨value, -, line, -, rfl⟩ := h
        have hvalue : 1 ≤ n := Nat.one_le_iff_ne_zero.mpr hroom
        exact Json.nesting_node_le (by simp [hvalue])
    all_goals simp only [Option.bind_eq_some_iff, Option.pure_def, Option.some.injEq] at h
    · obtain ⟨name, -, line, -, rfl⟩ := h
      exact Json.nesting_node_le (by simp)
    · obtain ⟨name, -, value, hvalue, declares, -, line, -, rfl⟩ := h
      have := Expr.nesting_of_ofJson? hvalue
      exact Json.nesting_node_le (by simp [this])
    · split at h
      · cases h
      · next hroom =>
        simp only [Option.bind_eq_some_iff, Option.some.injEq] at h
        obtain ⟨name, -, params, -, body, hbody, line, -, rfl⟩ := h
        have hparams : 1 ≤ n := Nat.one_le_iff_ne_zero.mpr hroom
        have := Block.nesting_of_ofJson? hbody
        exact Json.nesting_node_le (by simp [hparams, this])
    · obtain ⟨callee, hcallee, args, hargs, line, -, rfl⟩ := h
      have := Expr.nesting_of_ofJson? hcallee
      have := nesting_of_exprsOfJson? hargs
      exact Json.nesting_node_le (by simp [*])
    · obtain ⟨value, hvalue, line, -, rfl⟩ := h
      have := Expr.nesting_of_ofJson? hvalue
      exact Json.nesting_node_le (by simp [this])
    · obtain ⟨test, htest, onTrue, honTrue, onFalse, honFalse, line, -, rfl⟩ := h
      have := Expr.nesting_of_ofJson? htest
      have := Block.nesting_of_ofJson? honTrue
      have := Block.nesting_of_ofJson? honFalse
      exact Json.nesting_node_le (by simp [*])
    · obtain ⟨fields, hfields, line, -, rfl⟩ := h
      have := nesting_of_fieldsOfJson? hfields
      exact Json.nesting_node_le (by simp [this])
    · obtain ⟨receiver, hreceiver, name, -, line, -, rfl⟩ := h
      have := Expr.nesting_of_ofJson? hreceiver
      exact Json.nesting_node_le (by simp [this])
    · obtain ⟨receiver, hreceiver, name, -, value, hvalue, line, -, rfl⟩ := h
      have := Expr.nesting_of_ofJson? hreceiver
      have := Expr.nesting_of_ofJson? hvalue
      exact Json.nesting_node_le (by simp [*])
    · obtain ⟨receiver, hreceiver, name, -, args, hargs, line, -, rfl⟩ := h
      have := Expr.nesting_of_ofJson? hreceiver
      have := nesting_of_exprsOfJson? hargs
      exact Json.nesting_node_le (by simp [*])
  · cases h

theorem Block.nesting_of_ofJson? {n : Nat} {json : Json} {body : Block}
    (h : Block.ofJson? n json = some body) : body.toJson.nesting ≤ n := by
  match n with
  | 0 => cases h
  | n + 1 =>
    unfold Block.ofJson? at h
    simp only [Option.bind_eq_bind, Option.bind_eq_some_iff] at h
    obtain ⟨_, -, h⟩ := h
    split at h
    · simp only [Option.bind_eq_some_iff, Option.pure_def, Option.some.injEq] at h
      obtain ⟨instrs, hinstrs, line, -, rfl⟩ := h
      have := nesting_of_exprsOfJson? hinstrs
      exact Json.nesting_record_le.mpr ⟨n, rfl, by simp [this]⟩
    · cases h

theorem nesting_of_exprsOfJson? {n : Nat} {json : Json} {exprs : List Expr}
    (h : exprsOfJson? n json = some exprs) : (Json.array (exprsToJson exprs)).nesting ≤ n := by
  unfold exprsOfJson? at h
  split at h
  · next n items =>
    refine Json.nesting_array_le.mpr ⟨n, rfl, ?_⟩
    induction items generalizing exprs with
    | nil =>
      cases h
      exact List.forall_mem_nil _
    | cons item rest ih =>
      rw [List.mapM_cons] at h
      simp only [Option.bind_eq_bind, Option.bind_eq_some_iff, Option.pure_def,
        Option.some.injEq] at h
      obtain ⟨e, he, exprs, hexprs, rfl⟩ := h
      exact List.forall_mem_cons.mpr ⟨Expr.nesting_of_ofJson? he, ih hexprs⟩
  · cases h

theorem nesting_of_fieldsOfJson? {n : Nat} {json : Json} {fields : List (String × Expr)}
    (h : fieldsOfJson? n json = some fields) :
    (Json.array (fieldsToJson fields)).nesting ≤ n := by
  unfold fieldsOfJson? at h
  split at h
  · next n items =>
    refine Json.nesting_array_le.mpr ⟨n, rfl, ?_⟩
    induction items generalizing fields with
    | nil =>
      cases h
      exact List.forall_mem_nil _
    | cons item rest ih =>
      rw [List.mapM_cons] at h
      simp only [Option.bind_eq_bind, Option.bind_eq_some_iff, Option.pure_def,
        Option.some.injEq] at h
      obtain ⟨field, hfield, fields, hfields, rfl⟩ := h
      exact List.forall_mem_cons.mpr ⟨nesting_of_fieldOfJson? hfield, ih hfields⟩
  · cases h

theorem nesting_of_fieldOfJson? {n : Nat} {json : Json} {field : String × Expr}
    (h : fieldOfJson? n json = some field) :
    (Json.array [.text field.1, field.2.toJson]).nesting ≤ n := by
  unfold fieldOfJson? at h
  split at h
  · simp only [Option.bind_eq_bind, Option.bind_eq_some_iff, Option.pure_def,
      Option.some.injEq] at h
    obtain ⟨key, -, value, hvalue, rfl⟩ := h
    have := Expr.nesting_of_ofJson? hvalue
    exact Json.nesting_array_le.mpr ⟨_, rfl, by simp [this]⟩
  · cases h

end

/-! ## Exactness of programs -/

mutual

theorem Expr.isExact_toJson (e : Expr) : e.toJson.IsExact := by
  match e with
  | .block body =>
    exact Json.isExact_singleton.mpr (Block.isExact_toJson body)
  | .literal value line => exact Json.isExact_node (by simp)
  | .var name line => exact Json.isExact_node (by simp)
  | .assign name value declares line =>
    have := Expr.isExact_toJson value
    exact Json.isExact_node (by simp [this])
  | .function name params body line =>
    have := Block.isExact_toJson body
    exact Json.isExact_node (by simp [this])
  | .call callee args line =>
    have := Expr.isExact_toJson callee
    have := itemsAreExact_exprsToJson args
    exact Json.isExact_node (by simp [*])
  | .ret value line =>
    have := Expr.isExact_toJson value
    exact Json.isExact_node (by simp [this])
  | .cond test onTrue onFalse line =>
    have := Expr.isExact_toJson test
    have := Block.isExact_toJson onTrue
    have := Block.isExact_toJson onFalse
    exact Json.isExact_node (by simp [*])
  | .object fields line =>
    have := itemsAreExact_fieldsToJson fields
    exact Json.isExact_node (by simp [this])
  | .field receiver name line =>
    have := Expr.isExact_toJson receiver
    exact Json.isExact_node (by simp [this])
  | .setField receiver name value line =>
    have := Expr.isExact_toJson receiver
    have := Expr.isExact_toJson value
    exact Json.isExact_node (by simp [*])
  | .method receiver name args line =>
    have := Expr.isExact_toJson receiver
    have := itemsAreExact_exprsToJson args
    exact Json.isExact_node (by simp [*])

theorem Block.isExact_toJson (body : Block) : body.toJson.IsExact := by
  match body with
  | .mk instrs line =>
    have := itemsAreExact_exprsToJson instrs
    exact Json.isExact_record.mpr (by simp [this])

theorem itemsAreExact_exprsToJson (exprs : List Expr) :
    (Json.array (exprsToJson exprs)).IsExact := by
  match exprs with
  | [] => trivial
  | e :: rest => exact ⟨Expr.isExact_toJson e, itemsAreExact_exprsToJson rest⟩

theorem itemsAreExact_fieldsToJson (fields : List (String × Expr)) :
    (Json.array (fieldsToJson fields)).IsExact := by
  match fields with
  | [] => trivial
  | (key, value) :: rest =>
    exact ⟨⟨trivial, Expr.isExact_toJson value, trivial⟩, itemsAreExact_fieldsToJson rest⟩

end

/-! ## Programs -/

namespace Script

variable {script : Script}

theorem isExact_toJson (script : Script) : script.toJson.IsExact :=
  Json.isExact_singleton.mpr script.body.isExact_toJson

theorem ofJson?_toJson (h : script.toJson.nesting ≤ maxNesting) :
    ofJson? script.toJson = some script := by
  obtain ⟨m, hm, hbody⟩ := Json.nesting_singleton_le.mp h
  obtain rfl : maxNesting - 1 = m := by omega
  have hread := script.body.ofJson?_toJson hbody
  refine (Json.parts?_bind [("body", _)] (by rfl) (by decide) _).trans ?_
  simp [hread]

theorem nesting_of_ofJson? {json : Json} (h : ofJson? json = some script) :
    script.toJson.nesting ≤ maxNesting := by
  unfold ofJson? at h
  simp only [Option.bind_eq_bind, Option.bind_eq_some_iff] at h
  obtain ⟨_, -, h⟩ := h
  split at h
  · simp only [Option.bind_eq_some_iff, Option.pure_def, Option.some.injEq] at h
    obtain ⟨body, hbody, rfl⟩ := h
    exact Json.nesting_singleton_le.mpr ⟨_, rfl, Block.nesting_of_ofJson? hbody⟩
  · cases h

theorem read?_written (h : script.toJson.nesting ≤ maxNesting) :
    read? script.written = some script := by
  unfold read? written
  rw [Json.read?_written script.isExact_toJson]
  exact ofJson?_toJson h

end Script

/-- Programs survive their text: a program that nests no deeper than the reader goes is read back
from its compact text, and so is every program that was itself read from some text. -/
theorem Script.read?_written_of_nesting_or_read? :
    (∀ script : Script, script.toJson.nesting ≤ Script.maxNesting →
      Script.read? script.written = some script) ∧
    ∀ (text : String) (script : Script), Script.read? text = some script →
      Script.read? script.written = some script := by
  refine ⟨fun _ ↦ read?_written, fun text script h ↦ read?_written ?_⟩
  obtain ⟨json, -, hjson⟩ := Option.bind_eq_some_iff.mp h
  exact nesting_of_ofJson? hjson

/-- A text with parts in arrays, an unknown field, escapes and blanks, and without a name or some of
the lines. -/
def looseText : String :=
  " \x7b \"note\": [[1.5e3]], \"body\": [[\x7b\"Return\": [\x7b\"Fun\": \x7b\"body\": [[], 4], " ++
    "\"parameters\": [\"\\u00e9\", \"\\ud83d\\ude00\"]\x7d\x7d, 3]\x7d]]\x7d\n"

/-- The text that is written for the program in it. -/
def compactText : String :=
  "\x7b\"body\":\x7b\"instrs\":[\x7b\"Return\":\x7b\"expr\":\x7b\"Fun\":\x7b\"name\":null," ++
    "\"parameters\":[\"é\",\"😀\"],\"body\":\x7b\"instrs\":[],\"line\":4\x7d,\"line\":0\x7d\x7d," ++
    "\"line\":3\x7d\x7d],\"line\":0\x7d\x7d"

/-- A program that nests as deeply as the reader goes. -/
def deepestScript : Script :=
  ⟨.mk [Nat.repeat (Expr.ret · 0) 61 (.var "x" 0)] 0⟩

theorem Script.read?_written_samples :
    (deepestScript.toJson.nesting = Script.maxNesting ∧
      Script.read? deepestScript.written = some deepestScript) ∧
    ∃ script, Script.read? looseText = some script ∧ script.written = compactText ∧
      Script.read? compactText = some script := by
  have hdeepest : deepestScript.toJson.nesting = Script.maxNesting := by decide +kernel
  have hloose : (Script.read? looseText).map Script.written = some compactText := by
    decide +kernel
  obtain ⟨script, hread, hcompact⟩ := Option.map_eq_some_iff.mp hloose
  have hwritten := Script.read?_written_of_nesting_or_read?
  refine ⟨⟨hdeepest, hwritten.1 deepestScript (Nat.le_of_eq hdeepest)⟩, script, hread, hcompact, ?_⟩
  rw [← hcompact]
  exact hwritten.2 looseText script hread

end TandemScript
