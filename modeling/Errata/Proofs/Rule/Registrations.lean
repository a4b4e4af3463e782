import Errata.Proofs.FirstMet
import Errata.Proofs.Keyed.Sorted
import Errata.Proofs.Rule.RunningOrder
import Errata.Rule.Annotation
import Mathlib.Data.List.Sort
import Mathlib.Order.RelIso.Basic

/-!
# What a sequence of registrations leaves

A registry is an ordered map: under a name it has the rule that was registered last, and the names
stand in the order in which they were first registered. Main statement: look-ups, listings, classes
and the choice of a rule for a violation can all be read off the sequence of registrations.
-/
namespace Errata.Registry

/-- The last one of its name among these registrations. -/
def IsCurrent (calls : List Rule) (rule : Rule) : Prop :=
  ∃ earlier later, calls = earlier ++ rule :: later ∧ ∀ q ∈ later, q.name ≠ rule.name

/-- The turn at which a name is registered for the first time. -/
def firstTurn (calls : List Rule) (name : Text) : ℕ := calls.findIdx (·.name = name)

/-- The rule that has to plan for a violation: the one of its own name if that accepts it, else the
one that does and whose name was registered first. -/
inductive IsResponsible (calls : List Rule) (v : Violation) (rule : Rule) : Prop
  | own (hcurrent : IsCurrent calls rule) (haccepts : rule.accepts v)
      (hname : rule.name = v.ruleName)
  | volunteer (hcurrent : IsCurrent calls rule) (haccepts : rule.accepts v)
      (hown : ∀ q, IsCurrent calls q → q.name = v.ruleName → q.accepts v = false)
      (hfirst : ∀ q, IsCurrent calls q → q.accepts v →
        firstTurn calls rule.name ≤ firstTurn calls q.name)

theorem isCurrent_concat {calls : List Rule} {x rule : Rule} :
    IsCurrent (calls ++ [x]) rule ↔ rule = x ∨ IsCurrent calls rule ∧ rule.name ≠ x.name := by
  constructor
  · rintro ⟨earlier, later, hsplit, hlater⟩
    rcases concat_eq_split_iff.mp hsplit with ⟨-, -, rfl⟩ | ⟨between, rfl, rfl⟩
    · exact .inl rfl
    · refine .inr ⟨⟨earlier, between, rfl, fun q hq => hlater q (by simp [hq])⟩, ?_⟩
      exact (hlater x (by simp)).symm
  · rintro (rfl | ⟨⟨earlier, later, rfl, hlater⟩, hne⟩)
    · exact ⟨calls, [], rfl, by simp⟩
    · refine ⟨earlier, later ++ [x], by simp, fun q hq => ?_⟩
      rcases List.mem_append.mp hq with hq | hq
      · exact hlater q hq
      · rw [List.mem_singleton.mp hq]
        exact hne.symm

/-- Puts a rule in the place of the one with its name, or at the end. -/
def place (rule : Rule) (rules : List Rule) : List Rule :=
  Slots.scan (·.name) rule.name (fun _ => rule) rule rules

theorem rules_register (r : Registry) (rule : Rule) :
    (r.register rule).rules = place rule r.rules :=
  r.inStep.entries_alter

theorem mem_register {r : Registry} {rule q : Rule} :
    q ∈ (r.register rule).rules ↔ q = rule ∨ q ∈ r.rules ∧ q.name ≠ rule.name := by
  rw [rules_register, place, Slots.mem_scan r.distinct]
  by_cases hname : rule.name ∈ r.rules.map (·.name)
  · obtain ⟨old, hold⟩ := List.mem_map.mp hname
    grind
  · grind

theorem names_register (r : Registry) (rule : Rule) :
    (r.register rule).names =
      if rule.name ∈ r.names then r.names else r.names ++ [rule.name] := by
  rw [names, rules_register, place, Slots.map_key_scan (fun _ _ => rfl) rfl]
  by_cases h : rule.name ∈ r.rules.map (·.name)
  · exact (if_pos h).trans (if_pos h).symm
  · exact (if_neg h).trans (if_neg h).symm

theorem ofList_concat (calls : List Rule) (rule : Rule) :
    ofList (calls ++ [rule]) = (ofList calls).register rule := by
  rw [ofList, List.foldl_append]
  rfl

theorem rules_ofList (calls : List Rule) :
    (ofList calls).rules = calls.foldl (fun rules rule => place rule rules) [] := by
  induction calls using List.reverseRecOn with
  | nil => rfl
  | append_singleton calls rule ih => rw [ofList_concat, rules_register, ih, List.foldl_concat]

theorem mem_rules_ofList {calls : List Rule} {rule : Rule} :
    rule ∈ (ofList calls).rules ↔ IsCurrent calls rule := by
  induction calls using List.reverseRecOn with
  | nil =>
    refine iff_of_false List.not_mem_nil ?_
    rintro ⟨earlier, later, hsplit, -⟩
    exact List.append_ne_nil_of_right_ne_nil earlier (List.cons_ne_nil rule later) hsplit.symm
  | append_singleton calls x ih => rw [ofList_concat, mem_register, isCurrent_concat, ih]

theorem listsKeys_names (calls : List Rule) : ListsKeys (·.name) calls (ofList calls).names := by
  induction calls using List.reverseRecOn with
  | nil => exact .nil
  | append_singleton calls rule ih =>
    rw [ofList_concat, names_register]
    exact ih.concat rule

theorem rule?_ofList {calls : List Rule} {name : Text} {rule : Rule} :
    (ofList calls).rule? name = some rule ↔ IsCurrent calls rule ∧ rule.name = name := by
  rw [rule?_eq_some_iff, mem_rules_ofList]

theorem rule?_ofList_eq_none {calls : List Rule} {name : Text} :
    (ofList calls).rule? name = none ↔ ∀ q ∈ calls, q.name ≠ name := by
  rw [← Option.not_isSome_iff_eq_none, ← mem_names_iff, (listsKeys_names calls).mem_iff]
  simp

theorem rule?_name {r : Registry} {rule : Rule} (h : rule ∈ r.rules) :
    r.rule? rule.name = some rule :=
  rule?_eq_some_iff.mpr ⟨h, rfl⟩

def namesOf (r : Registry) (d : Determinism) : List Text :=
  (r.rules.filter (·.determinism = d)).map (·.name)

theorem namesOf_eq (r : Registry) (d : Determinism) :
    r.namesOf d = r.names.filter fun name => (r.rule? name).any (·.determinism = d) := by
  rw [namesOf, names, List.filter_map]
  congr 1
  refine List.filter_congr fun rule hrule => ?_
  simp [rule?_name hrule]

instance : IsStrictTotalOrder Determinism (· < ·) :=
  (⟨⟨Determinism.rank, by rintro (_ | _ | _) (_ | _ | _) <;> simp [Determinism.rank]⟩, Iff.rfl⟩ :
    ((· < ·) : Determinism → Determinism → Prop) ↪r ((· < ·) : ℕ → ℕ → Prop)).isStrictTotalOrder

theorem mem_byDeterminism {r : Registry} {d : Determinism} {names : List Text} :
    (d, names) ∈ r.byDeterminism ↔ names ≠ [] ∧ names = r.namesOf d :=
  Sorted.mem_collectBy

theorem flatMap_byDeterminism (r : Registry) : (r.byDeterminism.flatMap (·.2)).Perm r.names :=
  Sorted.flatMap_collectBy (·.determinism) (·.name) r.rules

theorem classes_sublist (r : Registry) :
    (r.byDeterminism.map (·.1)).Sublist Determinism.all := by
  have hsorted : (r.byDeterminism.map (·.1)).Pairwise (· < ·) :=
    List.pairwise_map.mpr (Sorted.isSorted_gather _ _ _)
  have hnodup : (r.byDeterminism.map (·.1)).Nodup := by
    refine hsorted.imp ?_
    rintro d e hlt rfl
    exact irrefl _ hlt
  have hall : r.byDeterminism.map (·.1) ⊆ Determinism.all := by
    rintro (_ | _ | _) - <;> decide
  exact List.sublist_of_subperm_of_pairwise (hnodup.subperm hall) hsorted (by decide)

theorem pairwise_firstTurn (calls : List Rule) :
    (ofList calls).rules.Pairwise fun a b => firstTurn calls a.name < firstTurn calls b.name := by
  have hnames : ((ofList calls).rules.map (·.name)).Pairwise fun a b =>
      firstTurn calls a < firstTurn calls b := (listsKeys_names calls).ordered
  rwa [List.pairwise_map] at hnames

/-- The first hit of a search along a growing measure is the least one. -/
theorem find?_eq_some_iff_least {α : Type} {p : α → Bool} {f : α → ℕ} {xs : List α}
    (h : xs.Pairwise fun a b => f a < f b) {x : α} :
    xs.find? p = some x ↔ x ∈ xs ∧ p x ∧ ∀ y ∈ xs, p y → f x ≤ f y := by
  induction xs with
  | nil => simp
  | cons a xs ih =>
    obtain ⟨ha, hxs⟩ := List.pairwise_cons.mp h
    by_cases hp : p a
    · rw [List.find?_cons_of_pos hp, Option.some_inj]
      constructor
      · rintro rfl
        refine ⟨List.mem_cons_self, hp, fun y hy _ => ?_⟩
        rcases List.mem_cons.mp hy with rfl | hy
        · exact Nat.le_refl _
        · exact Nat.le_of_lt (ha y hy)
      · rintro ⟨hx, -, hleast⟩
        rcases List.mem_cons.mp hx with rfl | hx
        · rfl
        · exact absurd (ha x hx) (Nat.not_lt.mpr (hleast a List.mem_cons_self hp))
    · rw [List.find?_cons_of_neg hp, ih hxs]
      grind

theorem ruleFor?_eq_some_iff {calls : List Rule} {v : Violation} {rule : Rule} :
    (ofList calls).ruleFor? v = some rule ↔ IsResponsible calls v rule := by
  rw [ruleFor?, Option.or_eq_some_iff, Option.filter_eq_some_iff, Option.filter_eq_none_iff,
    rule?_ofList, find?_eq_some_iff_least (pairwise_firstTurn calls), mem_rules_ofList]
  constructor
  · rintro (⟨⟨hcurrent, hname⟩, haccepts⟩ | ⟨hown, hcurrent, haccepts, hfirst⟩)
    · exact .own hcurrent haccepts hname
    · refine .volunteer hcurrent haccepts (fun q hq hname => ?_) fun q hq =>
        hfirst q (mem_rules_ofList.mpr hq)
      simpa using hown q (rule?_ofList.mpr ⟨hq, hname⟩)
  · rintro (⟨hcurrent, haccepts, hname⟩ | ⟨hcurrent, haccepts, hown, hfirst⟩)
    · exact .inl ⟨⟨hcurrent, hname⟩, haccepts⟩
    · refine .inr ⟨fun q hq => ?_, hcurrent, haccepts, fun q hq =>
        hfirst q (mem_rules_ofList.mp hq)⟩
      obtain ⟨hq, hname⟩ := rule?_ofList.mp hq
      simp [hown q hq hname]

theorem ruleFor?_eq_none_iff {calls : List Rule} {v : Violation} :
    (ofList calls).ruleFor? v = none ↔ ∀ q, IsCurrent calls q → q.accepts v = false := by
  rw [ruleFor?, Option.or_eq_none_iff, Option.filter_eq_none_iff, List.find?_eq_none]
  simp only [mem_rules_ofList, rule?_ofList, Bool.not_eq_true]
  exact and_iff_right_of_imp fun hnone q hq => hnone q hq.1

/-- Whatever has been registered: the index has just the registered names, each with the slot of its
rule, and the rules are those of a list that is searched for every name. So under a name stands the
rule that was registered last, or none if the name never was. The names are listed once each, in the
order of their first turns, and counted. The classes divide them up by what their current rules are,
in the same order. For a violation the rule of its name is chosen if that accepts it, else the first
one that does, else none. -/
theorem registered_as_ordered_map (calls : List Rule) :
    let r := ofList calls
    (∀ name slot, r.slots.slot? name = some slot ↔ r.rules[slot]?.map (·.name) = some name) ∧
    r.rules = calls.foldl (fun rules rule => place rule rules) [] ∧
    (∀ name rule, r.rule? name = some rule ↔ IsCurrent calls rule ∧ rule.name = name) ∧
    (∀ name, r.rule? name = none ↔ ∀ q ∈ calls, q.name ≠ name) ∧
    ListsKeys (·.name) calls r.names ∧
    r.size = (calls.map (·.name)).toFinset.card ∧
    (r.byDeterminism.map (·.1)).Sublist Determinism.all ∧
    (∀ d names, (d, names) ∈ r.byDeterminism ↔
      names ≠ [] ∧ names = r.names.filter fun name => (r.rule? name).any (·.determinism = d)) ∧
    (r.byDeterminism.flatMap (·.2)).Perm r.names ∧
    (∀ v rule, r.ruleFor? v = some rule ↔ IsResponsible calls v rule) ∧
    ∀ v, r.ruleFor? v = none ↔ ∀ q, IsCurrent calls q → q.accepts v = false := by
  intro r
  refine ⟨r.inStep, rules_ofList calls, fun _ _ => rule?_ofList, fun _ => rule?_ofList_eq_none,
    listsKeys_names calls, ?_, r.classes_sublist, fun d names => ?_, r.flatMap_byDeterminism,
    fun _ _ => ruleFor?_eq_some_iff, fun _ => ruleFor?_eq_none_iff⟩
  · rw [← (listsKeys_names calls).length_eq, names, List.length_map]
    rfl
  · rw [mem_byDeterminism, namesOf_eq]

/-- A name that is registered again keeps its place, and the new rule counts. -/
example :
    let a := Rule.flag "A" []
    let r := ofList [a, Rule.flag "B" [], { a with determinism := .fully }]
    r.names = ["A", "B"] ∧ r.namesOf .fully = ["A"] ∧ r.namesOf .never = ["B"] := by
  decide

end Errata.Registry
