import Errata.Proofs.Run.Accounting
import Errata.Proofs.Run.Plans
import Mathlib.Data.List.Basic

/-!
# Selecting a rule

A run with a rule selected is the part of the run of all rules that is about the rule's name: of
the violations, of the files, and of the fixes that are planned for each file, in their order.
-/
namespace Errata

namespace Planner

variable {r : Registry} {selected : Option Text} {vs : List Violation}

theorem filter_fixes (hr : r.KeepsViolations) (p : Violation → Bool) (vs : List Violation)
    (content : Text) :
    ((new r selected).fixes vs content).filter (fun f => p f.violation) =
      (new r selected).fixes (vs.filter p) content := by
  rw [fixes_eq, fixes_eq, List.filter_append, List.filter_flatMap]
  congr 1
  · refine List.flatMap_congr fun rule hrule => ?_
    have hregistered : rule ∈ r.rules :=
      r.runningOrder_perm.mem_iff.mp (List.mem_of_mem_filter hrule)
    rw [Fix.filter_filterMap fun v f => hr rule hregistered v content f, List.filter_comm]
  · split
    · rw [Fix.filter_filterMap (hr.resolve? content), List.filter_comm]
    · rfl

/-- About violations of the name of a rule, no other rule is asked anyway. -/
theorem fixes_selected {name : Text} (hname : name ∈ r.names)
    (hvs : ∀ v ∈ vs, v.ruleName = name) (content : Text) :
    (new r (some name)).fixes vs content = (new r none).fixes vs content := by
  have hnamed : vs.filter (fun v => (r.rule? v.ruleName).isNone) = [] := by
    refine List.filter_eq_nil_iff.mpr fun v hv => ?_
    rw [hvs v hv, Option.isNone_iff_eq_none]
    exact Option.isSome_iff_ne_none.mp (Registry.mem_names_iff.mp hname)
  have hasked : ∀ rule ∈ r.runningOrder,
      (vs.filter (·.ruleName == rule.name)).filterMap (rule.plan · content) =
        if rule.name == name then
          (vs.filter (·.ruleName == rule.name)).filterMap (rule.plan · content)
        else [] := by
    intro rule _
    split
    · rfl
    · next hother =>
      rw [List.filter_eq_nil_iff.mpr fun v hv => ?_, List.filterMap_nil]
      rwa [hvs v hv, BEq.comm]
  calc (new r (some name)).fixes vs content
    _ = (r.runningOrder.filter (·.name == name)).flatMap fun rule =>
          (vs.filter (·.ruleName == rule.name)).filterMap (rule.plan · content) :=
        (fixes_eq r (some name) vs content).trans (List.append_nil _)
    _ = r.runningOrder.flatMap fun rule =>
          (vs.filter (·.ruleName == rule.name)).filterMap (rule.plan · content) := by
        rw [← flatMap_ite, List.flatMap_congr hasked]
    _ = (new r none).fixes vs content := by
        rw [fixes_all, hnamed, List.filterMap_nil, List.append_nil]

end Planner

namespace Session

theorem exists_unit {vs : List Violation} {v : Violation} (hv : v ∈ vs) :
    ∃ u ∈ units vs, u.file.components = v.file.components := by
  obtain ⟨g, hg, hfile⟩ := (Group.isByFile_byFile vs).complete v hv
  exact ⟨⟨g.1, g.2⟩, List.mem_map_of_mem hg, hfile⟩

/-- The units of some of the violations and those of all of them hold, for the same file, the same
of the former. -/
theorem violations_of_filter {vs : List Violation} {p : Violation → Bool} {u w : FileUnit}
    (hu : u ∈ units (vs.filter p)) (hw : w ∈ units vs)
    (h : u.file.components = w.file.components) : u.violations = w.violations.filter p := by
  rw [(mem_units hu).1, (mem_units hw).1, List.filter_comm]
  refine congrArg _ (List.filter_congr fun v _ => ?_)
  rw [Bool.eq_iff_iff, Path.same_iff, Path.same_iff, h]

/-- Units for only some of the violations: they are the units that have such violations, with
nothing else in them. -/
structure IsUnitsPart (p : Violation → Bool) (all part : List FileUnit) : Prop where
  of_part : ∀ u ∈ part, ∃ w ∈ all, u.file.components = w.file.components ∧
    u.violations = w.violations.filter p
  of_all : ∀ w ∈ all, w.violations.filter p = [] ∨ ∃ u ∈ part,
    u.file.components = w.file.components ∧ u.violations = w.violations.filter p

theorem isUnitsPart_filter (p : Violation → Bool) (vs : List Violation) :
    IsUnitsPart p (units vs) (units (vs.filter p)) := by
  constructor
  case of_part =>
    intro u hu
    obtain ⟨v, hv, hfile⟩ := (mem_units hu).2
    obtain ⟨w, hw, hsame⟩ := exists_unit (List.mem_of_mem_filter hv)
    have hcomponents : u.file.components = w.file.components := by rw [hsame, hfile]
    exact ⟨w, hw, hcomponents, violations_of_filter hu hw hcomponents⟩
  case of_all =>
    intro w hw
    refine or_iff_not_imp_left.mpr fun hne => ?_
    obtain ⟨v, hv⟩ := List.exists_mem_of_ne_nil _ hne
    rw [(mem_units hw).1, List.filter_comm] at hv
    obtain ⟨hv, hsame⟩ := List.mem_filter.mp hv
    obtain ⟨u, hu, hfile⟩ := exists_unit hv
    have hcomponents : u.file.components = w.file.components :=
      hfile.trans (Path.same_iff.mp hsame)
    exact ⟨u, hu, hcomponents, violations_of_filter hu hw hcomponents⟩

/-- With a rule selected, a run is the part of the run of all rules that is about the rule's name.
It reports the violations of that name. It has the files that have such violations, and for each
file, whatever it holds, it plans the fixes that the run of all rules plans for violations of that
name, in the same order. -/
theorem selected_is_part {registry : Registry} (hkeeps : registry.KeepsViolations) {name : Text}
    (hname : name ∈ registry.names) :
    let about (v : Violation) : Bool := v.ruleName == name
    (∀ vs content, (Planner.new registry (some name)).fixes (vs.filter about) content =
      ((Planner.new registry none).fixes vs content).filter fun f => about f.violation) ∧
    (∀ vs, IsUnitsPart about (units vs) (units (vs.filter about))) ∧
    ∀ {s s' : Session} {tree tree' : FileTree} {payload : Except LintError Text} {q q' : Request}
      {out out' : Report × Session × FileTree} {journal journal' : Journal},
      s.Runs tree payload q out journal → s'.Runs tree' payload q' out' journal' →
      s'.settings = s.settings → q.selected = none → q'.selected = some name →
      out'.1.violations = out.1.violations.filter about := by
  intro about
  refine ⟨fun vs content => ?_, fun vs => isUnitsPart_filter about vs, ?_⟩
  · rw [Planner.filter_fixes hkeeps]
    refine Planner.fixes_selected hname (fun v hv => ?_) content
    simpa [about] using (List.mem_filter.mp hv).2
  · intro s s' tree tree' payload q q' out out' journal journal' hall hpart hsettings hnone hsome
    rw [hpart.violations_eq, hall.violations_eq,
      show s'.violations payload = s.violations payload by simp only [violations, hsettings]]
    cases s.violations payload with
    | error => rfl
    | ok vs => simp only [relevant, hnone, hsome, about]

def Payload.twoRules : Text :=
  "\x7b\"a.adoc\":[\x7b\"Check\":\"AsciiDocDITA.EntityReference\",\"Line\":1,\"Column\":3," ++
    "\"Match\":\"&amp;\"\x7d,\x7b\"Check\":\"AsciiDocDITA.ShortDescription\",\"Line\":1," ++
    "\"Column\":1\x7d]\x7d"

/-- A dry run of the built-in rules has two violations and plans two fixes; with a rule selected it
has one of each. -/
theorem selected_is_part_entityReference :
    let s := Session.new Registry.builtin {}
    let name := Rule.entityReference.name
    let all := { Request.plain with dryRun := true }
    let one := { all with selected := some name }
    let out := s.run .oneDocument (.ok Payload.twoRules) all
    let out' := s.run .oneDocument (.ok Payload.twoRules) one
    let full := (Planner.new Registry.builtin none).fixes out.1.violations "A &amp;\n"
    let part := (Planner.new Registry.builtin (some name)).fixes out'.1.violations "A &amp;\n"
    (out.1.violations.length = 2 ∧ full.length = 2 ∧ out'.1.violations.length = 1 ∧
      part.length = 1) ∧
    out'.1.violations = out.1.violations.filter (·.ruleName == name) ∧
    part = full.filter (·.violation.ruleName == name) := by
  intro s name all one out out' full part
  have hname : name ∈ Registry.builtin.names := by decide +kernel
  obtain ⟨hfixes, -, hreports⟩ := selected_is_part Registry.builtin_keepsViolations hname
  obtain ⟨journal, hruns⟩ := s.runs_run .oneDocument (.ok Payload.twoRules) all
  obtain ⟨journal', hruns'⟩ := s.runs_run .oneDocument (.ok Payload.twoRules) one
  have hviolations : out'.1.violations = out.1.violations.filter (·.ruleName == name) :=
    hreports hruns hruns' rfl rfl rfl
  refine ⟨by decide +kernel, hviolations, ?_⟩
  simp only [part, hviolations]
  exact hfixes _ _

end Session

end Errata
