import Errata.Alert.Tally
import Errata.Proofs.Alert.Grouping
import Errata.Proofs.Keyed.Sorted
import Mathlib.Data.Char
import Mathlib.Data.List.Lex
import Mathlib.Order.RelClasses
import Mathlib.Order.RelIso.Basic

/-!
# Groups and tallies

Groups divide violations up by a key and lose none of them, and a tally counts just what the groups
hold: as many files as there are groups by file, and for each rule the size of its group.
-/
namespace Errata

open Errata.Group

instance : IsStrictTotalOrder Severity (· < ·) :=
  (⟨⟨Severity.rank, by rintro (_ | _ | _) (_ | _ | _) <;> simp [Severity.rank]⟩, Iff.rfl⟩ :
    ((· < ·) : Severity → Severity → Prop) ↪r ((· < ·) : ℕ → ℕ → Prop)).isStrictTotalOrder

namespace Group

variable {κ : Type} [DecidableEq κ] {key : Violation → κ} {vs : List Violation}

theorem IsGrouping.mem_iff {gs : List (κ × List Violation)} (h : IsGrouping key id vs gs) {k : κ}
    {members : List Violation} :
    (k, members) ∈ gs ↔ members ≠ [] ∧ members = vs.filter (key · = k) := by
  constructor
  · intro hg
    have hmembers : members = vs.filter (key · = k) := h.members _ hg
    obtain ⟨v, hv, hkey⟩ := (h.keys.mem_iff k).mp (List.mem_map.mpr ⟨_, hg, rfl⟩)
    have hmem : v ∈ members := by simp [hmembers, hv, hkey]
    exact ⟨List.ne_nil_of_mem hmem, hmembers⟩
  · rintro ⟨hne, rfl⟩
    obtain ⟨v, hv⟩ := List.exists_mem_of_ne_nil _ hne
    obtain ⟨hvs, hkey⟩ := List.mem_filter.mp hv
    obtain ⟨g, hg, rfl⟩ :=
      List.mem_map.mp ((h.keys.mem_iff k).mpr ⟨v, hvs, of_decide_eq_true hkey⟩)
    rw [← h.members g hg]
    exact hg

end Group

namespace Tally

theorem byRule_perm (vs : List Violation) :
    (ofViolations vs).byRule.Perm ((Group.byRule vs).map fun g => (g.1, g.2.length)) := by
  have hgrouping := isGrouping_byRule vs
  have hsorted : (ofViolations vs).byRule.Nodup := by
    refine (Sorted.isSorted_gather _ _ vs).imp ?_
    rintro a b hlt rfl
    exact irrefl _ hlt
  have hsizes : ((Group.byRule vs).map fun g => (g.1, g.2.length)).Nodup := by
    refine .of_map Prod.fst ?_
    simpa [Function.comp_def] using hgrouping.keys.nodup
  refine (List.perm_ext_iff_of_nodup hsorted hsizes).mpr fun ⟨name, n⟩ => ?_
  rw [ofViolations, Sorted.mem_countBy, List.mem_map]
  constructor
  · rintro ⟨hne, rfl⟩
    exact ⟨(name, _),
      hgrouping.mem_iff.mpr ⟨List.ne_nil_of_length_pos (Nat.pos_of_ne_zero hne), rfl⟩,
      rfl⟩
  · rintro ⟨⟨k, members⟩, hg, heq⟩
    obtain ⟨rfl, rfl⟩ := Prod.mk.inj heq
    obtain ⟨hne, hmembers⟩ := hgrouping.mem_iff.mp hg
    exact ⟨List.length_eq_zero_iff.not.mpr hne, congrArg List.length hmembers⟩

theorem files_eq (vs : List Violation) : (ofViolations vs).files = (byFile vs).length := by
  have hkeys := (isGrouping_byFile vs).keys.length_eq
  rw [List.length_map] at hkeys
  rw [hkeys, ofViolations, PathSet.size_ofList, List.map_map]
  rfl

/-- A name with a greater number comes first, and of two with the same the lesser one. -/
def Outranks (a b : Text × ℕ) : Prop := b.2 < a.2 ∨ a.2 = b.2 ∧ a.1 < b.1

theorem ranksBefore_iff {a b : Text × ℕ} :
    ranksBefore a b ↔ b.2 < a.2 ∨ a.2 = b.2 ∧ ¬ b.1 < a.1 := by
  unfold ranksBefore
  split
  · next heq => simp [heq]
  · next hne => simp [hne]

theorem ranksBefore_trans (a b c : Text × ℕ) (hab : ranksBefore a b) (hbc : ranksBefore b c) :
    ranksBefore a c := by
  rw [ranksBefore_iff] at *
  rcases hab with hab | ⟨hab, hname⟩
  · rcases hbc with hbc | ⟨hbc, -⟩ <;> left <;> omega
  · rcases hbc with hbc | ⟨hbc, hname'⟩
    · left
      omega
    · rw [List.not_lt] at hname hname'
      exact .inr ⟨hab.trans hbc, List.not_lt.mpr (List.le_trans hname hname')⟩

theorem ranksBefore_total (a b : Text × ℕ) : ranksBefore a b || ranksBefore b a := by
  rw [Bool.or_eq_true, ranksBefore_iff, ranksBefore_iff]
  rcases Nat.lt_trichotomy a.2 b.2 with hlt | heq | hgt
  · exact .inr (.inl hlt)
  · by_cases hname : b.1 < a.1
    · exact .inr (.inr ⟨heq.symm, List.lt_asymm hname⟩)
    · exact .inl (.inr ⟨heq, hname⟩)
  · exact .inl (.inl hgt)

def ranking (s : Tally) : List (Text × ℕ) := s.byRule.mergeSort ranksBefore

theorem ranking_perm (s : Tally) : s.ranking.Perm s.byRule := List.mergeSort_perm _ _

theorem pairwise_outranks (vs : List Violation) :
    (ofViolations vs).ranking.Pairwise Outranks := by
  have hnames : (ofViolations vs).ranking.Pairwise fun a b => a.1 ≠ b.1 := by
    refine (ranking_perm _).symm.pairwise ((Sorted.isSorted_gather _ _ vs).imp ?_) fun h => h.symm
    rintro a b hlt heq
    exact List.lt_irrefl _ (heq ▸ hlt)
  have hranked := List.pairwise_mergeSort ranksBefore_trans ranksBefore_total
    (ofViolations vs).byRule
  refine (hranked.and hnames).imp fun {a b} ⟨hrank, hne⟩ => ?_
  rcases ranksBefore_iff.mp hrank with hlt | ⟨heq, hname⟩
  · exact .inl hlt
  · refine .inr ⟨heq, ?_⟩
    by_contra hnot
    exact hne (Sorted.eq_of_not_lt hnot hname)

/-- Violations are divided up by file and by rule without loss, and the tally agrees with the
groups: each way of counting adds up to all violations, there are as many files as groups by file,
each rule has the number of its group, and the most common rules are the first of all rules by
their rank. -/
theorem groups_agree_with_tally (vs : List Violation) :
    IsGrouping (·.file.components) Path.components vs (byFile vs) ∧
    (∀ g ∈ byFile vs, g.2.head?.map (·.file) = some g.1) ∧
    IsGrouping (·.ruleName) id vs (Group.byRule vs) ∧
    let s := ofViolations vs
    let sizes := (Group.byRule vs).map fun g => (g.1, g.2.length)
    s.total = vs.length ∧
    (∀ severity n, (severity, n) ∈ s.bySeverity ↔
      n ≠ 0 ∧ n = (vs.filter (·.severity = severity)).length) ∧
    (s.bySeverity.map (·.2)).sum = s.total ∧
    (s.byRule.map (·.2)).sum = s.total ∧
    s.files = (byFile vs).length ∧
    s.byRule.Perm sizes ∧
    ∃ ranking : List (Text × ℕ), ranking.Perm sizes ∧ ranking.Pairwise Outranks ∧
      ∀ n, s.mostCommon n = ranking.take n :=
  ⟨isGrouping_byFile vs, fun _ hg => (of_mem_collect hg).2, isGrouping_byRule vs, rfl,
    fun _ _ => Sorted.mem_countBy, Sorted.sum_countBy _ vs, Sorted.sum_countBy _ vs, files_eq vs,
    byRule_perm vs,
    (ofViolations vs).ranking, (ranking_perm _).trans (byRule_perm vs), pairwise_outranks vs,
    fun _ => rfl⟩

end Tally

end Errata
