import Errata.Proofs.Rule.RunningOrder
import Mathlib.Logic.Relation

/-!
# The running order puts dependencies first

While a walk is below a rule, that rule has been visited and is not listed yet. Whatever the walk
meets then, the rule depends on it, directly or through others. So when a rule is listed, what it
depends on has been listed before it, or is one of those the walk is below, and then depends on the
rule in turn.
-/
namespace Errata.Registry

open Relation (TransGen)

variable {r : Registry}

/-- A rule of the registry depends on another one, or on itself. -/
def DependsOn (r : Registry) (a b : Rule) : Prop := a ∈ r.rules ∧ b ∈ r.requirements a

/-- Each rule of the list stands behind those that it depends on, unless they depend on it in
turn. -/
def IsSettled (r : Registry) (rules : List Rule) : Prop :=
  ∀ before a, before ++ [a] <+: rules →
    ∀ b, r.DependsOn a b → b ∈ before ∨ TransGen r.DependsOn b a

theorem isSettled_nil : IsSettled r [] := by
  intro before a h
  simp at h

theorem IsSettled.concat {rules : List Rule} {a : Rule} (h : IsSettled r rules)
    (ha : ∀ b, r.DependsOn a b → b ∈ rules ∨ TransGen r.DependsOn b a) :
    IsSettled r (rules ++ [a]) := by
  intro before x hprefix
  rcases List.prefix_concat_iff.mp hprefix with heq | hprefix
  · obtain ⟨rfl, hx⟩ := List.append_inj' heq rfl
    obtain rfl := List.singleton_inj.mp hx
    exact ha
  · exact h before x hprefix

def Walk.IsBelow (w : Walk) (rule : Rule) : Prop := rule.name ∈ w.visited ∧ rule ∉ w.ordered

/-- What a walk has come to, it has listed; it is below the same rules in the end. -/
theorem Walk.Passes.isBelow {w w' : Walk} {rules : List Rule} (h : Passes r w w' rules)
    {x : Rule} (hx : x ∈ r.rules) (hbelow : w'.IsBelow x) : w.IsBelow x := by
  obtain ⟨hvisited, hunlisted⟩ := hbelow
  rw [h.ordered, List.mem_append, not_or] at hunlisted
  refine ⟨?_, hunlisted.1⟩
  rcases List.mem_append.mp (h.visited.mem_iff.mp hvisited) with hnew | hold
  · obtain ⟨y, hy, hname⟩ := List.mem_map.mp hnew
    rw [eq_of_name_eq (h.registered y hy) hx hname] at hy
    exact absurd hy hunlisted.2
  · exact hold

/-- A walk keeps its list settled if the rules that it is below depend on those it goes along. -/
theorem Visits.isSettled {w w' : Walk} {rules : List Rule} (h : Visits r w rules w')
    (hrules : ∀ rule ∈ rules, rule ∈ r.rules)
    (hbelow : ∀ x ∈ r.rules, w.IsBelow x → ∀ rule ∈ rules, TransGen r.DependsOn x rule)
    (hw : IsSettled r w.ordered) : IsSettled r w'.ordered := by
  induction h with
  | nil => exact hw
  | old _ _ ih =>
    refine ih (List.forall_mem_cons.mp hrules).2 (fun x hx hxw => ?_) hw
    exact (List.forall_mem_cons.mp (hbelow x hx hxw)).2
  | @new w inner w' rule rules hnew below _ ihbelow ihrest =>
    obtain ⟨hrule, hrules⟩ := List.forall_mem_cons.mp hrules
    have hrequired : ∀ q ∈ r.requirements rule, q ∈ r.rules :=
      fun q hq => mem_rules_of_mem_requirements hq
    let deeper : Walk := { w with visited := rule.name :: w.visited }
    have hdeeper : ∀ x ∈ r.rules, deeper.IsBelow x → w.IsBelow x ∨ x = rule := by
      rintro x hx ⟨hvisited, hunlisted⟩
      rcases List.mem_cons.mp hvisited with hname | hold
      · exact .inr (eq_of_name_eq hx hrule hname)
      · exact .inl ⟨hold, hunlisted⟩
    obtain ⟨passed, hpasses⟩ := below.exists_passes hrequired
    have hsettled : IsSettled r inner.ordered := by
      refine ihbelow hrequired (fun x hx hxw q hq => ?_) hw
      rcases hdeeper x hx hxw with hold | rfl
      · exact .tail (hbelow x hx hold rule List.mem_cons_self) ⟨hrule, hq⟩
      · exact .single ⟨hx, hq⟩
    refine ihrest hrules (fun x hx hxw => ?_) (hsettled.concat fun b hb => ?_)
    · have hold := (hpasses.concat hrule hnew).isBelow hx hxw
      exact (List.forall_mem_cons.mp (hbelow x hx hold)).2
    · by_cases hlisted : b ∈ inner.ordered
      · exact .inl hlisted
      · -- The walk is below what has been visited and is not listed when `rule` is.
        have hregistered := hrequired b hb.2
        have hopen := hpasses.isBelow hregistered ⟨below.name_mem_visited b hb.2, hlisted⟩
        rcases hdeeper b hregistered hopen with hold | rfl
        · exact .inr (hbelow b hregistered hold rule List.mem_cons_self)
        · exact .inr (.single hb)

theorem isSettled_runningOrder (r : Registry) : IsSettled r r.runningOrder := by
  obtain ⟨w, hvisits, hordered⟩ := r.visits_runningOrder
  rw [← hordered]
  refine hvisits.isSettled (fun _ hrule => hrule) ?_ isSettled_nil
  rintro x - ⟨hvisited, -⟩
  cases hvisited

theorem before_of_dependsOn {a b : Rule} (h : r.DependsOn a b)
    (hcycle : ¬TransGen r.DependsOn b a) : [b, a].Sublist r.runningOrder := by
  obtain ⟨before, after, hsplit⟩ := List.append_of_mem (r.runningOrder_perm.mem_iff.mpr h.1)
  have hprefix : before ++ [a] <+: r.runningOrder := ⟨after, by simp [hsplit]⟩
  have hb := (isSettled_runningOrder r before a hprefix b h).resolve_right hcycle
  rw [hsplit, ← List.singleton_append]
  exact (List.singleton_sublist.mpr hb).append (List.singleton_sublist.mpr List.mem_cons_self)

theorem not_sublist_swap {α : Type} {l : List α} (h : l.Nodup) {a b : α}
    (hab : [a, b].Sublist l) : ¬[b, a].Sublist l := by
  induction l with
  | nil => simp at hab
  | cons x l ih =>
    obtain ⟨hx, hl⟩ := List.nodup_cons.mp h
    intro hba
    cases hab with
    | cons _ hab =>
      cases hba with
      | cons _ hba => exact ih hl hab hba
      | cons_cons => exact hx (hab.subset (by simp))
    | cons_cons _ hb =>
      cases hba with
      | cons _ hba => exact hx (hba.subset (by simp))
      | cons_cons _ ha => exact hx (List.singleton_sublist.mp ha)

theorem visit_of_mem {fuel : ℕ} {w : Walk} {rule : Rule} (h : rule.name ∈ w.visited) :
    visit r fuel w rule = w := by
  cases fuel with
  | zero => rfl
  | succ fuel => rw [visit_succ, if_pos h]

theorem foldl_visit_of_mem {fuel : ℕ} {w : Walk} {rules : List Rule}
    (h : ∀ rule ∈ rules, rule.name ∈ w.visited) : rules.foldl (visit r fuel) w = w := by
  induction rules with
  | nil => rfl
  | cons rule rules ih =>
    obtain ⟨hrule, hrules⟩ := List.forall_mem_cons.mp h
    rw [List.foldl_cons, visit_of_mem hrule, ih hrules]

theorem foldl_visit_in_order {fuel : ℕ} {done rest : List Rule} (hsplit : r.rules = done ++ rest)
    (horder : r.rules.Pairwise fun a b => ¬r.DependsOn a b) :
    (rest.foldl (visit r (fuel + 1)) ⟨(done.map (·.name)).reverse, done⟩).ordered = r.rules := by
  induction rest generalizing done with
  | nil => exact (List.append_nil done).symm.trans hsplit.symm
  | cons rule rest ih =>
    have hrule : rule ∈ r.rules := by simp [hsplit]
    have hnew : rule.name ∉ done.map (·.name) := by
      have hdistinct := r.distinct
      rw [hsplit, List.map_append, List.map_cons] at hdistinct
      exact fun hmem => (List.nodup_append.mp hdistinct).2.2 _ hmem _ List.mem_cons_self rfl
    let w : Walk := ⟨rule.name :: (done.map (·.name)).reverse, done⟩
    have hinner : (r.requirements rule).foldl (visit r fuel) w = w := by
      refine foldl_visit_of_mem fun q hq => ?_
      have hmem := mem_rules_of_mem_requirements hq
      rw [hsplit, List.pairwise_append, List.pairwise_cons] at horder
      rw [hsplit, List.mem_append, List.mem_cons] at hmem
      rcases hmem with hdone | rfl | hrest
      · exact List.mem_cons_of_mem _ (List.mem_reverse.mpr (List.mem_map_of_mem hdone))
      · exact List.mem_cons_self
      · exact absurd ⟨hrule, hq⟩ (horder.2.1.1 q hrest)
    have hstep : visit r (fuel + 1) ⟨(done.map (·.name)).reverse, done⟩ rule =
        ⟨((done ++ [rule]).map (·.name)).reverse, done ++ [rule]⟩ := by
      rw [visit_succ, if_neg (by simpa using hnew)]
      refine (congrArg (fun inner : Walk => { inner with ordered := inner.ordered ++ [rule] })
        hinner).trans ?_
      simp [w]
    rw [List.foldl_cons, hstep]
    exact ih (by simp [hsplit])

/-- A walk along all rules comes to its end, and in one way only; it lists every rule once. What a
rule depends on comes before it, unless that depends on the rule in turn, so where nothing goes
round in a circle it always does. If all rules stand in slots behind those of what they depend on,
the running order is that of the slots. -/
theorem runningOrder_dependencies (r : Registry) :
    (∃ w, (∀ w', Visits r ⟨[], []⟩ r.rules w' ↔ w' = w) ∧ w.ordered = r.runningOrder) ∧
    r.runningOrder.Perm r.rules ∧
    (∀ a b, r.DependsOn a b → ¬TransGen r.DependsOn b a → [b, a].Sublist r.runningOrder) ∧
    ((∀ a, ¬TransGen r.DependsOn a a) →
      ∀ a b, r.DependsOn a b → [b, a].Sublist r.runningOrder) ∧
    ((∀ a b, r.DependsOn a b → a ≠ b → [b, a].Sublist r.rules) → r.runningOrder = r.rules) := by
  refine ⟨?_, r.runningOrder_perm, fun a b => before_of_dependsOn, fun hacyclic a b h => ?_,
    fun horder => ?_⟩
  · obtain ⟨w, hvisits, hordered⟩ := r.visits_runningOrder
    refine ⟨w, fun w' => ⟨fun h => h.unique hvisits, ?_⟩, hordered⟩
    rintro rfl
    exact hvisits
  · exact before_of_dependsOn h fun hback => hacyclic a (.head h hback)
  · refine foldl_visit_in_order (List.nil_append r.rules).symm ?_
    have hnodup : r.rules.Nodup := .of_map _ r.distinct
    refine List.pairwise_iff_forall_sublist.mpr fun {a b} hab hdepends => ?_
    have hne : a ≠ b := by
      rintro rfl
      exact List.nodup_iff_sublist.mp hnodup a hab
    exact not_sublist_swap hnodup hab (horder a b hdepends hne)

end Errata.Registry
