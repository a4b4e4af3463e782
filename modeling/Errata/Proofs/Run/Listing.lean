import Errata.Proofs.Edit.Blocks
import Errata.Rule.Builtin
import Errata.Run.Plan
import Mathlib.Data.List.Nodup
import Mathlib.Data.List.Perm.Basic

/-!
# The order in which violations are listed

A rule looks at one violation at a time, so violations that are listed in another order get the same
fixes, in another order. The pass sorts them by their turns. Where two fixes have one turn their
listing decides which comes first; where every fix has a turn of its own it has no part in what
comes out.
-/
namespace Errata

namespace Edit

/-- What the pass sorts by: the line, whether the fix puts lines in there, and the column. -/
def turn (f : Fix) : ℕ × Bool × ℕ := (f.row, f.placement.inserts, f.violation.col)

theorem turn_eq_of_precedes {f g : Fix} (hfg : precedes f g) (hgf : precedes g f) :
    turn f = turn g := by
  unfold precedes at hfg hgf
  unfold turn
  grind

/-- With a turn for each fix there is one order to make them in. -/
theorem order_eq_of_perm {fixes fixes' : List Fix} (hperm : fixes.Perm fixes')
    (hturns : ∀ f ∈ fixes, ∀ g ∈ fixes, turn f = turn g → f = g) :
    order fixes = order fixes' := by
  have hsorted : ∀ l : List Fix, (order l).Pairwise fun f g => precedes f g :=
    fun l => List.pairwise_mergeSort precedes_trans precedes_total l
  have horders : (order fixes).Perm (order fixes') :=
    (order_perm fixes).trans (hperm.trans (order_perm fixes').symm)
  refine horders.eq_of_pairwise ?_ (hsorted fixes) (hsorted fixes')
  intro f g hf hg hfg hgf
  have hf : f ∈ fixes := (order_perm fixes).mem_iff.mp hf
  have hg : g ∈ fixes := hperm.mem_iff.mpr ((order_perm fixes').mem_iff.mp hg)
  exact hturns f hf g hg (turn_eq_of_precedes hfg hgf)

theorem apply_congr_order {content : Text} {fixes fixes' : List Fix}
    (h : order fixes = order fixes') : apply content fixes = apply content fixes' := by
  simp only [apply, pass, h]

end Edit

namespace Planner

open scoped List in
/-- Every violation is asked about by itself. -/
theorem questions_perm (p : Planner) {vs vs' : List Violation} (h : vs.Perm vs') :
    (p.questions vs).Perm (p.questions vs') := by
  have hnamed : ∀ r : Rule, ((vs.filter (·.ruleName == r.name)).map fun v => (r, v)) ~
      (vs'.filter (·.ruleName == r.name)).map fun v => (r, v) :=
    fun r => (h.filter _).map _
  have hoffered : ((vs.filter fun v => (p.registry.rule? v.ruleName).isNone).filterMap fun v =>
        (p.registry.ruleFor? v).map fun r => (r, v)) ~
      (vs'.filter fun v => (p.registry.rule? v.ruleName).isNone).filterMap fun v =>
        (p.registry.ruleFor? v).map fun r => (r, v) :=
    (h.filter _).filterMap _
  unfold questions
  refine (List.Perm.flatMap_left _ fun r _ => hnamed r).append ?_
  cases p.fallback with
  | true => exact hoffered
  | false => exact .refl _

theorem fixes_perm (p : Planner) {vs vs' : List Violation} (h : vs.Perm vs') (content : Text) :
    (p.fixes vs content).Perm (p.fixes vs' content) :=
  (p.questions_perm h).filterMap _

/-- Violations of a file that are listed in another order get the same fixes. If no two different
ones have the same turn, the text that comes out is the same, and so are the fixes that were made
and those that were skipped, one by one. -/
theorem outcome_eq_of_perm (p : Planner) {vs vs' : List Violation} (content : Text)
    (hperm : vs.Perm vs')
    (hturns : ∀ f ∈ p.fixes vs content, ∀ g ∈ p.fixes vs content,
      Edit.turn f = Edit.turn g → f = g) :
    (p.fixes vs content).Perm (p.fixes vs' content) ∧
      Edit.apply content (p.fixes vs content) = Edit.apply content (p.fixes vs' content) := by
  have hfixes := p.fixes_perm hperm content
  exact ⟨hfixes, Edit.apply_congr_order (Edit.order_eq_of_perm hfixes hturns)⟩

def reportAt (check found : Text) (line column : ℕ) : Violation where
  file := "a.adoc"
  ruleName := Violation.ruleOfCheck check
  line := line
  column := column
  message := "m"
  severity := .warning
  originalText := found
  suggestedText := none
  checkId := check
  link := none

/-- Two entities and a comment on one line, listed from left to right and from right to left. -/
theorem outcome_eq_of_perm_threeReports :
    let p := new Registry.builtin none
    let content : Text := "= Title\nA &amp; B &lt;\n"
    let vs := [reportAt "Docs.BlockTitle" [] 2 1, reportAt "Docs.EntityReference" "&amp;" 2 3,
      reportAt "Docs.EntityReference" "&lt;" 2 11]
    vs.Perm vs.reverse ∧ ((p.fixes vs content).map Edit.turn).Nodup ∧
      (p.fixes vs content).length = 3 ∧
      Edit.apply content (p.fixes vs content) = Edit.apply content (p.fixes vs.reverse content) := by
  intro p content vs
  have hperm : vs.Perm vs.reverse := vs.reverse_perm.symm
  obtain ⟨hnodup, hlength⟩ : ((p.fixes vs content).map Edit.turn).Nodup ∧
      (p.fixes vs content).length = 3 := by
    decide +kernel
  have hturns : ∀ f ∈ p.fixes vs content, ∀ g ∈ p.fixes vs content,
      Edit.turn f = Edit.turn g → f = g :=
    fun f hf g hg h => List.inj_on_of_nodup_map hnodup hf hg h
  exact ⟨hperm, hnodup, hlength, (p.outcome_eq_of_perm content hperm hturns).2⟩

end Planner

end Errata
