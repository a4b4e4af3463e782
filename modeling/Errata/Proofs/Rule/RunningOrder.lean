import Errata.Proofs.Keyed.Slots
import Errata.Rule.Registry
import Mathlib.Data.List.Perm.Basic

/-!
# The running order lists every rule once

A walk goes along some rules, and from each rule that is new to it first along those the rule
depends on. Every level of such a walk visits one more rule of the registry, so it comes to an end
within the depth that `Registry.visit` is given. A walk lists the rules that it visits, so the one
over all rules lists each of them, and none twice.
-/
namespace Errata.Registry

variable {r : Registry}

theorem distinct (r : Registry) : (r.rules.map (·.name)).Nodup := r.inStep.nodup

theorem eq_of_name_eq {rule other : Rule} (hrule : rule ∈ r.rules) (hother : other ∈ r.rules)
    (h : rule.name = other.name) : rule = other :=
  List.inj_on_of_nodup_map r.distinct hrule hother h

theorem rule?_eq_some_iff {name : Text} {rule : Rule} :
    r.rule? name = some rule ↔ rule ∈ r.rules ∧ rule.name = name :=
  r.inStep.get?_eq_some_iff

theorem mem_names_iff {name : Text} : name ∈ r.names ↔ (r.rule? name).isSome := by
  rw [Option.isSome_iff_exists, names, List.mem_map]
  exact exists_congr fun rule => rule?_eq_some_iff.symm

/-- The rules that are registered under the names a rule depends on. -/
def requirements (r : Registry) (rule : Rule) : List Rule := rule.dependencies.filterMap r.rule?

theorem mem_rules_of_mem_requirements {rule q : Rule} (h : q ∈ r.requirements rule) :
    q ∈ r.rules := by
  obtain ⟨name, -, hname⟩ := List.mem_filterMap.mp h
  exact (rule?_eq_some_iff.mp hname).1

/-- A walk along some rules, from one state to another, however deep it goes. -/
inductive Visits (r : Registry) : Walk → List Rule → Walk → Prop
  | nil (w : Walk) : Visits r w [] w
  | old {w w' : Walk} {rule : Rule} {rules : List Rule} (h : rule.name ∈ w.visited)
      (rest : Visits r w rules w') : Visits r w (rule :: rules) w'
  | new {w inner w' : Walk} {rule : Rule} {rules : List Rule} (h : rule.name ∉ w.visited)
      (below : Visits r { w with visited := rule.name :: w.visited } (r.requirements rule) inner)
      (rest : Visits r { inner with ordered := inner.ordered ++ [rule] } rules w') :
      Visits r w (rule :: rules) w'

/-- From `w` on, a walk has gone over these rules and no others. -/
structure Walk.Passes (r : Registry) (w w' : Walk) (rules : List Rule) : Prop where
  registered : ∀ rule ∈ rules, rule ∈ r.rules
  ordered : w'.ordered = w.ordered ++ rules
  visited : w'.visited.Perm (rules.map (·.name) ++ w.visited)
  nodup : w.visited.Nodup → w'.visited.Nodup

namespace Walk.Passes

variable {w w' w'' : Walk} {rules rules' : List Rule}

theorem refl (w : Walk) : Passes r w w [] :=
  ⟨by simp, by simp, by simp, id⟩

theorem trans (h : Passes r w w' rules) (h' : Passes r w' w'' rules') :
    Passes r w w'' (rules ++ rules') := by
  constructor
  case registered =>
    intro rule hrule
    rcases List.mem_append.mp hrule with hrule | hrule
    · exact h.registered rule hrule
    · exact h'.registered rule hrule
  case ordered => rw [h'.ordered, h.ordered, List.append_assoc]
  case visited =>
    refine h'.visited.trans ((h.visited.append_left _).trans ?_)
    rw [List.map_append, ← List.append_assoc]
    exact List.perm_append_comm.append_right _
  case nodup => exact fun hnodup => h'.nodup (h.nodup hnodup)

theorem concat {rule : Rule} (hrule : rule ∈ r.rules) (hnew : rule.name ∉ w.visited)
    (h : Passes r { w with visited := rule.name :: w.visited } w' rules) :
    Passes r w { w' with ordered := w'.ordered ++ [rule] } (rules ++ [rule]) := by
  constructor
  case registered =>
    intro q hq
    rcases List.mem_append.mp hq with hq | hq
    · exact h.registered q hq
    · rwa [List.mem_singleton.mp hq]
  case ordered =>
    dsimp only
    rw [h.ordered, List.append_assoc]
  case visited => simpa using h.visited
  case nodup => exact fun hnodup => h.nodup (List.nodup_cons.mpr ⟨hnew, hnodup⟩)

end Walk.Passes

namespace Visits

variable {w w' w'' : Walk} {rules : List Rule}

theorem exists_passes (h : Visits r w rules w') (hrules : ∀ rule ∈ rules, rule ∈ r.rules) :
    ∃ passed, Walk.Passes r w w' passed := by
  induction h with
  | nil w => exact ⟨[], .refl w⟩
  | old _ _ ih => exact ih (List.forall_mem_cons.mp hrules).2
  | new hnew _ _ ihbelow ihrest =>
    obtain ⟨hrule, hrules⟩ := List.forall_mem_cons.mp hrules
    obtain ⟨inner, hinner⟩ := ihbelow fun q hq => mem_rules_of_mem_requirements hq
    obtain ⟨rest, hrest⟩ := ihrest hrules
    exact ⟨_, (hinner.concat hrule hnew).trans hrest⟩

theorem visited_subset (h : Visits r w rules w') : w.visited ⊆ w'.visited := by
  induction h with
  | nil w => exact List.Subset.refl _
  | old _ _ ih => exact ih
  | new _ _ _ ihbelow ihrest =>
    exact List.Subset.trans (List.Subset.trans (List.subset_cons_self _ _) ihbelow) ihrest

theorem name_mem_visited (h : Visits r w rules w') :
    ∀ rule ∈ rules, rule.name ∈ w'.visited := by
  induction h with
  | nil => simp
  | old hold rest ih => exact List.forall_mem_cons.mpr ⟨rest.visited_subset hold, ih⟩
  | new _ below rest _ ih =>
    have hself := rest.visited_subset (below.visited_subset List.mem_cons_self)
    exact List.forall_mem_cons.mpr ⟨hself, ih⟩

theorem unique (h : Visits r w rules w') (h' : Visits r w rules w'') : w' = w'' := by
  induction h generalizing w'' with
  | nil =>
    cases h'
    rfl
  | old hold _ ih =>
    cases h' with
    | old _ rest => exact ih rest
    | new hnew => exact absurd hold hnew
  | new hnew _ _ ihbelow ihrest =>
    cases h' with
    | old hold => exact absurd hold hnew
    | new _ below rest =>
      obtain rfl := ihbelow below
      exact ihrest rest

end Visits

def Walk.unvisited (r : Registry) (w : Walk) : ℕ :=
  r.rules.countP fun q => !w.visited.contains q.name

theorem Walk.unvisited_mono {w w' : Walk} (h : w.visited ⊆ w'.visited) :
    w'.unvisited r ≤ w.unvisited r :=
  List.countP_mono_left fun q _ hq => by
    simp only [Bool.not_eq_true', List.contains_eq_mem, decide_eq_false_iff_not] at hq ⊢
    exact fun hold => hq (h hold)

theorem Walk.unvisited_lt {w : Walk} {rule : Rule} (hrule : rule ∈ r.rules)
    (hnew : rule.name ∉ w.visited) :
    Walk.unvisited r { w with visited := rule.name :: w.visited } < w.unvisited r := by
  obtain ⟨before, after, hsplit⟩ := List.append_of_mem hrule
  have hless : ∀ rules : List Rule,
      (rules.countP fun q => !decide (q.name ∈ rule.name :: w.visited)) ≤
        rules.countP fun q => !decide (q.name ∈ w.visited) :=
    fun rules => List.countP_mono_left fun q _ => by simp
  have hbefore := hless before
  have hafter := hless after
  simp only [unvisited, List.contains_eq_mem, hsplit, List.countP_append, List.countP_cons, hnew,
    List.mem_cons_self, decide_true, decide_false, Bool.not_true, Bool.not_false, if_true,
    Bool.false_eq_true, if_false]
  omega

theorem visit_succ (fuel : ℕ) (w : Walk) (rule : Rule) :
    visit r (fuel + 1) w rule =
      if rule.name ∈ w.visited then w
      else
        let inner := (r.requirements rule).foldl (visit r fuel)
          { w with visited := rule.name :: w.visited }
        { inner with ordered := inner.ordered ++ [rule] } :=
  rfl

/-- A depth of more than the rules that are left to visit does not cut a walk short. -/
theorem visits_foldl {fuel : ℕ} {rules : List Rule} (hrules : ∀ rule ∈ rules, rule ∈ r.rules)
    {w : Walk} (h : w.unvisited r < fuel) : Visits r w rules (rules.foldl (visit r fuel) w) := by
  induction fuel generalizing rules w with
  | zero => omega
  | succ fuel ih =>
    induction rules generalizing w with
    | nil => exact .nil w
    | cons rule rules ihrest =>
      obtain ⟨hrule, hrules⟩ := List.forall_mem_cons.mp hrules
      rw [List.foldl_cons, visit_succ]
      split
      · next hold => exact .old hold (ihrest hrules h)
      · next hnew =>
        have hless := Walk.unvisited_lt hrule hnew
        let begun : Walk := { w with visited := rule.name :: w.visited }
        have hbelow : Visits r begun (r.requirements rule)
            ((r.requirements rule).foldl (visit r fuel) begun) :=
          ih (fun q hq => mem_rules_of_mem_requirements hq)
            (Nat.lt_of_lt_of_le hless (Nat.le_of_lt_succ h))
        refine .new hnew hbelow (ihrest hrules ?_)
        exact Nat.lt_of_le_of_lt (Walk.unvisited_mono hbelow.visited_subset) (Nat.lt_trans hless h)

theorem visits_runningOrder (r : Registry) :
    ∃ w, Visits r ⟨[], []⟩ r.rules w ∧ w.ordered = r.runningOrder := by
  refine ⟨_, visits_foldl (fun _ hrule => hrule) ?_, rfl⟩
  exact Nat.lt_succ_of_le List.countP_le_length

theorem runningOrder_perm (r : Registry) : r.runningOrder.Perm r.rules := by
  obtain ⟨w, hvisits, hordered⟩ := r.visits_runningOrder
  obtain ⟨rules, hpasses⟩ := hvisits.exists_passes fun _ hrule => hrule
  obtain rfl : r.runningOrder = rules := hordered.symm.trans hpasses.ordered
  have hnames := hpasses.visited
  rw [List.append_nil] at hnames
  have hnodup : (r.runningOrder.map (·.name)).Nodup :=
    hnames.nodup_iff.mp (hpasses.nodup List.nodup_nil)
  refine (List.perm_ext_iff_of_nodup (.of_map _ hnodup) (.of_map _ r.distinct)).mpr fun rule => ?_
  refine ⟨hpasses.registered rule, fun hrule => ?_⟩
  have hvisited := hvisits.name_mem_visited rule hrule
  obtain ⟨other, hother, hname⟩ := List.mem_map.mp (hnames.mem_iff.mp hvisited)
  rwa [← eq_of_name_eq (hpasses.registered other hother) hrule hname]

end Errata.Registry
