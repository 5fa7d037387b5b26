import Mathlib.Data.List.Nodup
import Mathlib.Data.List.Perm.Subperm
import Mathlib.Logic.Relation
import TandemScript.Listing
import TandemScript.Proofs.Conditions
import TandemScript.Proofs.Sweeps

/-!
# Complete listings

The listing of a function has one section for each compiled function that can be reached by loading
constants. A section is followed by those of the functions that are loaded in it and have none yet,
in order. Functions may load each other or themselves; every new section leaves fewer functions of
the dictionary without one.
-/

namespace TandemScript

/-! ## The order of sections -/

namespace Listing

/-- The compiled functions that some compiled function loads, in order. -/
def mentions (dict : Dictionary) (f : Compiled) : List Compiled :=
  compiledOf (loadedBy dict f.2)

/-- Some listed function has the number of the function. -/
def IsListed (listed : List Compiled) (f : Compiled) : Prop :=
  ∃ g ∈ listed, g.1.id = f.1.id

instance (listed : List Compiled) (f : Compiled) : Decidable (IsListed listed f) :=
  inferInstanceAs (Decidable (∃ g ∈ listed, g.1.id = f.1.id))

/-- What is added to the listed functions where those of a list have to be listed, too. A function
without a section gets one, then those that it mentions are listed, and then the rest is. -/
inductive Preorder (dict : Dictionary) : List Compiled → List Compiled → List Compiled → Prop
  | nil {listed : List Compiled} : Preorder dict listed [] []
  | known {listed rest added : List Compiled} {f : Compiled} (hlisted : IsListed listed f)
    (h : Preorder dict listed rest added) : Preorder dict listed (f :: rest) added
  | new {listed rest below behind : List Compiled} {f : Compiled} (hnew : ¬ IsListed listed f)
    (hbelow : Preorder dict (listed ++ [f]) (mentions dict f) below)
    (hbehind : Preorder dict (listed ++ f :: below) rest behind) :
    Preorder dict listed (f :: rest) (f :: below ++ behind)

variable {dict : Dictionary} {listed todo rest added : List Compiled} {f g : Compiled}

theorem any_eq_decide (listed : List Compiled) (f : Compiled) :
    (listed.any fun g ↦ g.1.id = f.1.id) = decide (IsListed listed f) := by
  rw [Bool.eq_iff_iff, List.any_eq_true, decide_eq_true_iff]
  simp only [decide_eq_true_iff]
  rfl

theorem visit_nil (dict : Dictionary) (count : Nat) (listed : List Compiled) :
    visit dict count listed [] = listed := by
  cases count <;> rfl

theorem visit_known (h : IsListed listed f) (dict : Dictionary) (count : Nat)
    (rest : List Compiled) :
    visit dict count listed (f :: rest) = visit dict count listed rest := by
  cases count with
  | zero => rfl
  | succ count =>
    have hany : (listed.any fun g ↦ g.1.id = f.1.id) = true :=
      (any_eq_decide listed f).trans (decide_eq_true h)
    simp only [visit, List.dropWhile_cons, hany, if_true]

theorem visit_new (h : ¬ IsListed listed f) (dict : Dictionary) (count : Nat)
    (rest : List Compiled) :
    visit dict (count + 1) listed (f :: rest) =
      visit dict count (listed ++ [f]) (mentions dict f ++ rest) := by
  have hany : (listed.any fun g ↦ g.1.id = f.1.id) = false :=
    (any_eq_decide listed f).trans (decide_eq_false h)
  simp only [visit, List.dropWhile_cons, hany, Bool.false_eq_true, if_false]
  rfl

/-- Enough visits list what the order says, and go on with what is behind. -/
theorem Preorder.visit_eq (h : Preorder dict listed todo added) (count : Nat)
    (rest : List Compiled) :
    visit dict (added.length + count) listed (todo ++ rest) =
      visit dict count (listed ++ added) rest := by
  induction h generalizing count rest with
  | nil => simp
  | known hlisted _ ih => rw [List.cons_append, visit_known hlisted, ih]
  | @new listed others below behind f hnew _ _ ihbelow ihbehind =>
    calc visit dict ((f :: below ++ behind).length + count) listed (f :: others ++ rest)
        = visit dict (below.length + (behind.length + count) + 1) listed
            (f :: (others ++ rest)) := by
          congr 1
          simp only [List.length_append, List.length_cons]
          omega
      _ = visit dict (below.length + (behind.length + count)) (listed ++ [f])
            (mentions dict f ++ (others ++ rest)) := visit_new hnew dict _ _
      _ = visit dict (behind.length + count) (listed ++ f :: below) (others ++ rest) := by
          rw [ihbelow, List.append_assoc]
          rfl
      _ = visit dict count (listed ++ (f :: below ++ behind)) rest := by
          rw [ihbehind, List.append_assoc]

/-- There is one way at most to list some functions. -/
theorem Preorder.unique {other : List Compiled} (h : Preorder dict listed todo added)
    (hother : Preorder dict listed todo other) : added = other := by
  apply List.append_cancel_left
  calc listed ++ added = visit dict other.length (listed ++ added) [] := (visit_nil ..).symm
    _ = visit dict (added.length + other.length) listed (todo ++ []) := (h.visit_eq _ _).symm
    _ = visit dict (other.length + added.length) listed (todo ++ []) := by rw [Nat.add_comm]
    _ = visit dict added.length (listed ++ other) [] := hother.visit_eq _ _
    _ = listed ++ other := visit_nil ..

/-! ## What is listed -/

/-- The second function has code, and the first one loads it as a constant. -/
def Loads (dict : Dictionary) (f g : Compiled) : Prop :=
  g.1.code? = some g.2 ∧
    ∃ pc word, f.2.Holds pc (.const word) ∧ dict.value word = .ok (.function g.1)

/-- The second function can be reached from the first one by loading constants. -/
abbrev Reaches (dict : Dictionary) : Compiled → Compiled → Prop :=
  Relation.ReflTransGen (Loads dict)

theorem loaded?_eq_some {fetched : Fetched} {h : Function} :
    loaded? dict fetched = some h ↔
      ∃ word, fetched = .instruction (.const word) ∧ dict.value word = .ok (.function h) := by
  have hvalue (word : Word) : word.asEntry?.bind dict.get? = some (.function h) ↔
      dict.value word = .ok (.function h) := by
    rw [Dictionary.value_eq_ok, Option.bind_eq_some_iff]
    simp only [Word.asEntry?_eq_some]
  constructor
  · intro hloaded
    unfold loaded? at hloaded
    split at hloaded
    · next word =>
      split at hloaded
      · next found hfound =>
        obtain rfl := Option.some.inj hloaded
        exact ⟨word, rfl, (hvalue word).mp hfound⟩
      · cases hloaded
    · cases hloaded
  · intro ⟨word, hfetched, hword⟩
    simp only [hfetched, loaded?, (hvalue word).mpr hword]

theorem mem_mentions : g ∈ mentions dict f ↔ Loads dict f g := by
  obtain ⟨h, code⟩ := g
  unfold mentions compiledOf loadedBy Loads Code.Holds
  simp only [List.mem_filterMap, Option.map_eq_some_iff, Prod.mk.injEq, Prod.exists,
    loaded?_eq_some]
  constructor
  · rintro ⟨_, ⟨pc, _, hmem, word, rfl, hword⟩, _, hcode, rfl, rfl⟩
    exact ⟨hcode, pc, word, hmem, hword⟩
  · intro ⟨hcode, pc, word, hmem, hword⟩
    exact ⟨h, ⟨pc, _, hmem, word, rfl, hword⟩, code, hcode, rfl, rfl⟩

namespace Preorder

/-- Whatever is listed can be reached by loading functions. -/
theorem reached (h : Preorder dict listed todo added) :
    ∀ g ∈ added, ∃ f ∈ todo, Reaches dict f g := by
  induction h with
  | nil => exact fun g hg ↦ absurd hg List.not_mem_nil
  | known _ _ ih =>
    intro g hg
    obtain ⟨f, hf, hreach⟩ := ih g hg
    exact ⟨f, List.mem_cons_of_mem _ hf, hreach⟩
  | @new listed others below behind f _ _ _ ihbelow ihbehind =>
    intro g hg
    rcases List.mem_append.mp hg with hg | hg
    · refine ⟨f, List.mem_cons_self, ?_⟩
      rcases List.mem_cons.mp hg with rfl | hg
      · exact .refl
      · obtain ⟨first, hfirst, hreach⟩ := ihbelow g hg
        exact .head (mem_mentions.mp hfirst) hreach
    · obtain ⟨other, hother, hreach⟩ := ihbehind g hg
      exact ⟨other, List.mem_cons_of_mem _ hother, hreach⟩

/-- No two listed functions have one number. -/
theorem nodup (h : Preorder dict listed todo added) (hlisted : (listed.map (·.1.id)).Nodup) :
    ((listed ++ added).map (·.1.id)).Nodup := by
  induction h with
  | nil => rwa [List.append_nil]
  | known _ _ ih => exact ih hlisted
  | @new listed others below behind f hnew _ _ ihbelow ihbehind =>
    have hfirst : ((listed ++ [f]).map (·.1.id)).Nodup := by
      rw [List.map_append, List.nodup_append]
      refine ⟨hlisted, by simp, fun a ha b hb hab ↦ hnew ?_⟩
      obtain ⟨g, hg, rfl⟩ := List.mem_map.mp ha
      exact ⟨g, hg, hab.trans (List.mem_singleton.mp hb)⟩
    have hbelow := ihbelow hfirst
    rw [List.append_assoc] at hbelow
    have hbehind := ihbehind hbelow
    rwa [List.append_assoc] at hbehind

end Preorder

/-! ## Every order ends -/

end Listing

end TandemScript
