import Errata.Proofs.Alert.Grouping
import Errata.Proofs.Rule.Declarations
import Errata.Proofs.Rule.EntityGuard
import Errata.Proofs.Rule.RunningOrder
import Errata.Rule.Builtin
import Errata.Run.Plan

/-!
# The planner asks the rules that are responsible

A planner goes rule by rule, and then over the violations that no rule has the name of. It never
asks whether a rule accepts a violation. A registry whose rules have nothing to say of what they do
not accept names the same rules violation by violation, so both ways come to the same fixes.
-/
namespace Errata

/-- Fixes that are for the violations they come from can be sorted out before they are made. -/
theorem Fix.filter_filterMap {g : Violation → Option Fix}
    (hg : ∀ v f, g v = some f → f.violation = v) (p : Violation → Bool) (vs : List Violation) :
    (vs.filterMap g).filter (fun f => p f.violation) = (vs.filter p).filterMap g := by
  rw [List.filter_filterMap, List.filterMap_filter]
  apply List.filterMap_congr
  intro v _
  cases hv : g v with
  | none => simp
  | some f => simp [Option.filter_some, hg v f hv]

theorem Rule.Annotation.violation_of_plan {name : Text} {v : Violation} {content : Text} {f : Fix}
    (h : plan name v content = some f) : f.violation = v := by
  simp only [plan] at h
  split at h
  · cases h
  · obtain rfl := Option.some.inj h
    rfl

namespace Registry

variable {r : Registry} {rule : Rule} {v : Violation} {content : Text}

/-- The fix of the rule that is responsible for a violation. -/
def resolve? (r : Registry) (content : Text) (v : Violation) : Option Fix :=
  (r.ruleFor? v).bind fun rule => rule.plan v content

/-- The rules put into their fixes the violations that they were asked about. -/
def KeepsViolations (r : Registry) : Prop :=
  ∀ rule ∈ r.rules, ∀ v content f, rule.plan v content = some f → f.violation = v

/-- Where a rule does not accept a violation of its own name, it has no fix for it, and no other
rule accepts it either. -/
def AnswersOwn (r : Registry) : Prop :=
  ∀ rule ∈ r.rules, ∀ v, v.ruleName = rule.name → rule.accepts v = false →
    (∀ content, rule.plan v content = none) ∧ ∀ other ∈ r.rules, other.accepts v = false

theorem mem_of_ruleFor? (h : r.ruleFor? v = some rule) : rule ∈ r.rules := by
  rcases Option.or_eq_some_iff.mp h with hown | ⟨-, hvolunteer⟩
  · exact (rule?_eq_some_iff.mp (Option.filter_eq_some_iff.mp hown).1).1
  · exact List.mem_of_find?_eq_some hvolunteer

theorem accepts_of_ruleFor? (h : r.ruleFor? v = some rule) : rule.accepts v := by
  rcases Option.or_eq_some_iff.mp h with hown | ⟨-, hvolunteer⟩
  · exact (Option.filter_eq_some_iff.mp hown).2
  · exact (List.find?_eq_some_iff_append.mp hvolunteer).1

theorem accepts_eq_false_of_ruleFor? (h : r.ruleFor? v = none) (hrule : rule ∈ r.rules) :
    rule.accepts v = false := by
  simpa using List.find?_eq_none.mp (Option.or_eq_none_iff.mp h).2 rule hrule

theorem KeepsViolations.resolve? (hr : r.KeepsViolations) (content : Text) (v : Violation)
    (f : Fix) (h : r.resolve? content v = some f) : f.violation = v := by
  obtain ⟨rule, hrule, hplan⟩ := Option.bind_eq_some_iff.mp h
  exact hr rule (mem_of_ruleFor? hrule) v content f hplan

theorem AnswersOwn.plan_eq_resolve? (hr : r.AnswersOwn) (hrule : rule ∈ r.rules)
    (hname : v.ruleName = rule.name) : rule.plan v content = r.resolve? content v := by
  have hown : r.rule? v.ruleName = some rule := rule?_eq_some_iff.mpr ⟨hrule, hname.symm⟩
  rw [Registry.resolve?, ruleFor?, hown, Option.filter_some]
  cases haccepts : rule.accepts v with
  | true => simp
  | false =>
    obtain ⟨hplan, hothers⟩ := hr rule hrule v hname haccepts
    have hnobody : r.rules.find? (·.accepts v) = none := by simpa using hothers
    simp [hnobody, hplan]

theorem builtin_rules : builtin.rules = builtinList := rfl

theorem mem_builtin (h : rule ∈ builtin.rules) : rule = Rule.entityReference ∨
    rule = Rule.contentType ∨ ∃ name dependencies, rule = Rule.flag name dependencies := by
  rw [builtin_rules] at h
  simp only [builtinList, List.mem_cons, List.not_mem_nil, or_false] at h
  rcases h with rfl | rfl | hflag
  · exact .inl rfl
  · exact .inr (.inl rfl)
  · refine .inr (.inr ?_)
    rcases hflag with rfl | rfl | rfl | rfl | rfl | rfl | rfl | rfl | rfl <;> exact ⟨_, _, rfl⟩

theorem accepts_builtin (h : rule ∈ builtin.rules) (v : Violation) :
    rule = Rule.entityReference ∨ rule.accepts v = (v.ruleName == rule.name) := by
  rcases mem_builtin h with rfl | rfl | ⟨name, dependencies, rfl⟩
  · exact .inl rfl
  · exact .inr rfl
  · exact .inr rfl

/-- A violation is for the rule that it names. Where it names none, or the one for entities, it is
for the one for entities, provided that its match is a known one. -/
theorem ruleFor?_builtin (v : Violation) : (builtin.ruleFor? v).map (·.name) =
    if v.ruleName ∈ (["ContentType", "ShortDescription", "BlockTitle", "DocumentId",
      "CrossReference", "TaskSection", "TaskStep", "TaskTitle", "TaskContents",
      "TaskExample"] : List Text) then some v.ruleName
    else if (Rule.Entity.replacement? v.originalText).isSome then some "EntityReference"
    else none := by
  have hentity : Rule.entityReference ∈ builtin.rules := List.mem_cons_self
  split
  · next hnamed =>
    obtain ⟨rule, hrule, hname⟩ := List.mem_map.mp
      (show v.ruleName ∈ builtin.rules.map (·.name) from List.mem_cons_of_mem _ hnamed)
    have haccepts : rule.accepts v := by
      rcases accepts_builtin hrule v with rfl | hown
      · exact absurd (hname ▸ hnamed) (by decide)
      · rw [hown, hname, beq_self_eq_true]
    rw [ruleFor?, rule?_eq_some_iff.mpr ⟨hrule, hname⟩, Option.filter_some, if_pos haccepts,
      Option.some_or, Option.map_some, hname]
  · next hnamed =>
    have honly : ∀ rule ∈ builtin.rules, rule.accepts v → rule = Rule.entityReference := by
      intro rule hrule haccepts
      rcases accepts_builtin hrule v with rfl | hown
      · rfl
      · have hname : v.ruleName = rule.name := by simpa [hown] using haccepts
        rcases List.mem_cons.mp (show rule.name ∈ builtin.rules.map (·.name) from
          List.mem_map_of_mem hrule) with hfirst | hlater
        · exact eq_of_name_eq hrule hentity hfirst
        · exact absurd (hname ▸ hlater) hnamed
    cases hfound : builtin.ruleFor? v with
    | none =>
      have hunknown : (Rule.Entity.replacement? v.originalText).isSome = false :=
        accepts_eq_false_of_ruleFor? hfound hentity
      rw [hunknown, Option.map_none, if_neg Bool.false_ne_true]
    | some rule =>
      obtain rfl := honly rule (mem_of_ruleFor? hfound) (accepts_of_ruleFor? hfound)
      have hknown : (Rule.Entity.replacement? v.originalText).isSome = true :=
        accepts_of_ruleFor? hfound
      rw [if_pos hknown]
      rfl

/-- The checks of task modules, and no others, wait for the content type. -/
theorem dependencies_builtin : ∀ rule ∈ builtin.rules,
    rule.dependencies = if ("Task" : Text) <+: rule.name then ["ContentType"] else [] := by
  decide

theorem builtin_keepsViolations : builtin.KeepsViolations := by
  intro rule hrule v content f hplan
  rcases mem_builtin hrule with rfl | rfl | ⟨name, dependencies, rfl⟩
  · exact (Rule.Entity.plan_eq_some hplan).2.2.1
  · exact Rule.ContentType.violation_of_plan hplan
  · exact Rule.Annotation.violation_of_plan hplan

theorem builtin_answersOwn : builtin.AnswersOwn := by
  intro rule hrule v hname haccepts
  -- The other rules accept whatever has their name.
  obtain rfl : rule = Rule.entityReference := by
    refine (accepts_builtin hrule v).resolve_right fun hown => ?_
    simp [hown, hname] at haccepts
  constructor
  · have hnone : (Rule.Entity.replacement? v.originalText).isSome = false := haccepts
    exact Rule.Entity.plan_eq_none (by simpa using hnone)
  · intro other hother
    by_cases hsame : other.name = Rule.entityReference.name
    · rwa [eq_of_name_eq hother hrule hsame]
    · rcases accepts_builtin hother v with rfl | hown
      · exact absurd rfl hsame
      · rw [hown, hname]
        simpa using Ne.symm hsame

end Registry

namespace Planner

variable {r : Registry} {content : Text}

theorem fixes_eq (r : Registry) (selected : Option Text) (vs : List Violation) (content : Text) :
    (new r selected).fixes vs content =
      ((r.runningOrder.filter fun rule => selected.all (rule.name == ·)).flatMap fun rule =>
        (vs.filter (·.ruleName == rule.name)).filterMap (rule.plan · content)) ++
      if selected.isNone then
        (vs.filter fun v => (r.rule? v.ruleName).isNone).filterMap (r.resolve? content)
      else [] := by
  rw [fixes, questions, List.filterMap_append, List.filterMap_flatMap, new]
  congr 1
  · simp only [List.filterMap_map, Function.comp_def]
  · split
    · rw [List.filterMap_filterMap]
      simp only [Option.bind_map, Function.comp_def]
      rfl
    · rfl

theorem exists_plan_of_mem_fixes {selected : Option Text} {vs : List Violation} {f : Fix}
    (h : f ∈ (new r selected).fixes vs content) :
    ∃ rule ∈ r.rules, ∃ v ∈ vs, rule.plan v content = some f := by
  rw [fixes_eq] at h
  rcases List.mem_append.mp h with h | h
  · obtain ⟨rule, hrule, hf⟩ := List.mem_flatMap.mp h
    obtain ⟨v, hv, hplan⟩ := List.mem_filterMap.mp hf
    exact ⟨rule, r.runningOrder_perm.mem_iff.mp (List.mem_of_mem_filter hrule), v,
      List.mem_of_mem_filter hv, hplan⟩
  · split at h
    · obtain ⟨v, hv, hresolve⟩ := List.mem_filterMap.mp h
      obtain ⟨rule, hrule, hplan⟩ := Option.bind_eq_some_iff.mp hresolve
      exact ⟨rule, Registry.mem_of_ruleFor? hrule, v, List.mem_of_mem_filter hv, hplan⟩
    · cases h

theorem violation_mem_of_mem_fixes (hr : r.KeepsViolations) {selected : Option Text}
    {vs : List Violation} {f : Fix} (h : f ∈ (new r selected).fixes vs content) :
    f.violation ∈ vs := by
  obtain ⟨rule, hrule, v, hv, hplan⟩ := exists_plan_of_mem_fixes h
  rwa [hr rule hrule v content f hplan]

theorem fixes_all (r : Registry) (vs : List Violation) (content : Text) :
    (new r none).fixes vs content =
      (r.runningOrder.flatMap fun rule =>
        (vs.filter (·.ruleName == rule.name)).filterMap (rule.plan · content)) ++
      (vs.filter fun v => (r.rule? v.ruleName).isNone).filterMap (r.resolve? content) := by
  rw [fixes_eq]
  simp only [Option.all_none, List.filter_true, Option.isNone_none, if_true]

open scoped List in
/-- Going rule by rule comes to the same fixes as asking for each violation the rule that is
responsible. -/
theorem fixes_perm_resolved (hr : r.AnswersOwn) (vs : List Violation) (content : Text) :
    ((new r none).fixes vs content).Perm (vs.filterMap (r.resolve? content)) := by
  let named (v : Violation) : Bool := (r.rule? v.ruleName).isSome
  have hown : ∀ rule ∈ r.runningOrder,
      (vs.filter (·.ruleName == rule.name)).filterMap (rule.plan · content) =
        (vs.filter (·.ruleName = rule.name)).filterMap (r.resolve? content) := by
    intro rule hrule
    have hregistered : rule ∈ r.rules := r.runningOrder_perm.mem_iff.mp hrule
    rw [List.filter_congr fun v _ => beq_eq_decide v.ruleName rule.name]
    refine List.filterMap_congr fun v hv => hr.plan_eq_resolve? hregistered ?_
    simpa using (List.mem_filter.mp hv).2
  -- Names are different, so no violation is asked about twice, and every order of them will do.
  have hnamed : (r.names.flatMap fun name => vs.filter (·.ruleName = name)) ~ vs.filter named :=
    Group.flatMap_filter_perm r.distinct fun v _ => Registry.mem_names_iff.symm
  calc (new r none).fixes vs content
    _ = (r.runningOrder.flatMap fun rule => vs.filter (·.ruleName = rule.name)).filterMap
            (r.resolve? content) ++
          (vs.filter fun v => !named v).filterMap (r.resolve? content) := by
        rw [fixes_all, List.flatMap_congr hown, List.filterMap_flatMap]
        simp only [named, Option.not_isSome]
    _ ~ (r.names.flatMap fun name => vs.filter (·.ruleName = name)).filterMap
            (r.resolve? content) ++
          (vs.filter fun v => !named v).filterMap (r.resolve? content) := by
        rw [Registry.names, List.flatMap_map]
        exact ((r.runningOrder_perm.flatMap_right _).filterMap _).append_right _
    _ ~ (vs.filter named).filterMap (r.resolve? content) ++
          (vs.filter fun v => !named v).filterMap (r.resolve? content) :=
        (hnamed.filterMap _).append_right _
    _ = (vs.filter named ++ vs.filter fun v => !named v).filterMap (r.resolve? content) :=
        List.filterMap_append.symm
    _ ~ vs.filterMap (r.resolve? content) := (List.filter_append_perm named vs).filterMap _

theorem filter_fixes_resolved (hr : r.AnswersOwn) (hkeeps : r.KeepsViolations)
    (vs : List Violation) (content : Text) (v : Violation) :
    ((new r none).fixes vs content).filter (·.violation = v) =
      (r.resolve? content v).elim [] (List.replicate (vs.count v)) := by
  have hperm := (fixes_perm_resolved hr vs content).filter (·.violation = v)
  rw [Fix.filter_filterMap (hkeeps.resolve? content) (· = v), List.filter_eq,
    List.filterMap_replicate] at hperm
  cases hresolve : r.resolve? content v with
  | none => simpa [hresolve] using hperm
  | some f => simpa [hresolve, List.perm_replicate] using hperm

/-- With the built-in rules, going rule by rule comes to the same fixes as asking for each
violation the rule that is responsible. A violation has one fix for each time that it is reported,
always the same, or none at all: where no rule is responsible for it or the rule that is declines
it. -/
theorem fixes_builtin (vs : List Violation) (content : Text) :
    let fixes := (new Registry.builtin none).fixes vs content
    fixes.Perm (vs.filterMap (Registry.builtin.resolve? content)) ∧
      ∀ v, fixes.filter (·.violation = v) =
          (Registry.builtin.resolve? content v).elim [] (List.replicate (vs.count v)) ∧
        ((∀ f ∈ fixes, f.violation ≠ v) ↔ v ∉ vs ∨ Registry.builtin.ruleFor? v = none ∨
          ∃ rule, Registry.builtin.ruleFor? v = some rule ∧ rule.plan v content = none) := by
  intro fixes
  refine ⟨fixes_perm_resolved Registry.builtin_answersOwn vs content, fun v => ?_⟩
  have hcopies : fixes.filter (·.violation = v) =
      (Registry.builtin.resolve? content v).elim [] (List.replicate (vs.count v)) :=
    filter_fixes_resolved Registry.builtin_answersOwn Registry.builtin_keepsViolations vs content v
  refine ⟨hcopies, ?_⟩
  calc (∀ f ∈ fixes, f.violation ≠ v)
    _ ↔ fixes.filter (·.violation = v) = [] := by simp [List.filter_eq_nil_iff]
    _ ↔ v ∉ vs ∨ Registry.builtin.resolve? content v = none := by
        rw [hcopies]
        cases Registry.builtin.resolve? content v <;> simp [List.count_eq_zero]
    _ ↔ v ∉ vs ∨ Registry.builtin.ruleFor? v = none ∨
          ∃ rule, Registry.builtin.ruleFor? v = some rule ∧ rule.plan v content = none := by
        rw [Registry.resolve?]
        cases Registry.builtin.ruleFor? v <;> simp

end Planner

end Errata
