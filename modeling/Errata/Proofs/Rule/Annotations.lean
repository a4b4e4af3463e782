import Errata.Rule.Annotation
import Errata.Proofs.Edit.Insertion
import Errata.Proofs.Text.Trim

/-!
# Marking a file a second time

All violations of a file are marked in one pass. A violation then counts as marked if its comment
stands right above its line. Where several comments were put in above one line, only one of them
stands there: of those made, the one that the pass made first. So a second pass adds nothing exactly
if no two violations on one line have different comments.
-/
namespace Errata.Rule.Annotation

open Text (lines trim blank)

section Comment

variable {v : Violation}

def message (v : Violation) : Text :=
  v.message.map fun c => if c = '\r' ∨ c = '\n' then ' ' else c

theorem text_eq (v : Violation) :
    text v = "// docfix: " ++ v.checkId ++ " [" ++ v.severity.name ++ "] " ++ trim (message v) := rfl

theorem blank_message (v : Violation) : blank (message v) = blank v.message := by
  have hblank : ∀ c, Text.isBlank (if c = '\r' ∨ c = '\n' then ' ' else c) = Text.isBlank c := by
    intro c
    split
    · next h =>
      rcases h with h | h <;> rw [h] <;> decide
    · exact Eq.refl _
  rw [message, blank, List.all_map]
  exact List.all_congr rfl hblank

theorem count_newline_text (v : Violation) : (text v).count '\n' = v.checkId.count '\n' := by
  have hname : v.severity.name.count '\n' = 0 := by cases v.severity <;> decide
  have hmessage : '\n' ∉ message v := by
    intro hmem
    obtain ⟨c, -, hc⟩ := List.mem_map.mp hmem
    split at hc
    · exact absurd hc (by decide)
    · next hne => exact hne (.inr hc)
  have htrim : (trim (message v)).count '\n' = 0 :=
    List.count_eq_zero.mpr fun hmem => hmessage ((Text.trim_sublist _).mem hmem)
  simp [text_eq, hname, htrim]

theorem newline_mem_text_iff : '\n' ∈ text v ↔ '\n' ∈ v.checkId := by
  rw [← List.count_pos_iff, ← List.count_pos_iff, count_newline_text]

theorem getLast?_text_of_blank (h : blank v.message) : (text v).getLast? = some ' ' := by
  have hmessage : trim (message v) = [] := by rwa [Text.trim_eq_nil_iff, blank_message]
  rw [text_eq, hmessage, List.append_nil, List.getLast?_append_of_ne_nil _ (by decide)]
  rfl

/-- A comment with a message, and no other, neither begins nor ends with white space. -/
theorem trim_text_iff : trim (text v) = text v ↔ ¬ blank v.message := by
  rw [Text.trim_eq_self_iff]
  constructor
  · rintro ⟨-, hlast⟩ hblank
    exact hlast ' ' (getLast?_text_of_blank hblank) (by decide)
  · intro h
    have hmessage : trim (message v) ≠ [] := by
      rwa [Ne, Text.trim_eq_nil_iff, blank_message]
    refine ⟨fun c hc => ?_, fun c hc => ?_⟩
    · have hhead : some '/' = some c := hc
      rw [← Option.some.inj hhead]
      decide
    · rw [text_eq, List.getLast?_append_of_ne_nil _ hmessage] at hc
      exact (Text.trim_eq_self_iff.mp (Text.trim_trim _)).2 c hc

theorem getLast?_text_ne_return (v : Violation) : (text v).getLast? ≠ some '\r' := by
  intro hlast
  by_cases hblank : blank v.message
  · rw [getLast?_text_of_blank hblank] at hlast
    exact absurd hlast (by decide)
  · exact (Text.trim_eq_self_iff.mp (trim_text_iff.mpr hblank)).2 '\r' hlast (by decide)

end Comment

/-- A violation that can be marked in these lines. -/
structure IsMarkable (ls : List Text) (v : Violation) : Prop where
  one_le_line : 1 ≤ v.line
  line_le : v.line ≤ ls.length
  checkId : '\n' ∉ v.checkId
  message : ¬ blank v.message

def fixes (content : Text) (vs : List Violation) : List Fix :=
  vs.filterMap fun v => plan v.ruleName v content

/-- The violation on the line where its own one stands after the fixes. -/
def moved (fixes : List Fix) (v : Violation) : Violation :=
  { v with line := v.line + (fixes.filter (·.row ≤ v.row)).length }

section Fixes

variable {content : Text} {vs : List Violation} {v : Violation} {f : Fix}

theorem plan_eq_none_iff {name : Text} : plan name v content = none ↔ isPresent v content := by
  unfold plan
  split <;> simp_all

theorem isPresent_iff : isPresent v content ↔
    0 < v.row ∧ ((lines content).map trim)[v.row - 1]? = some (text v) := by
  simp [isPresent, Option.any_eq_true]

theorem plan_puts {name : Text} (h : plan name v content = some f) :
    f.placement = .insertAbove ∧ f.row = v.row ∧ f.replacement = text v := by
  unfold plan at h
  split at h
  · cases h
  · obtain rfl := Option.some.inj h
    exact ⟨rfl, rfl, rfl⟩

theorem mem_fixes (h : f ∈ fixes content vs) :
    ∃ v ∈ vs, f.placement = .insertAbove ∧ f.row = v.row ∧ f.replacement = text v := by
  obtain ⟨v, hv, hplan⟩ := List.mem_filterMap.mp h
  exact ⟨v, hv, plan_puts hplan⟩

/-- A violation is marked by the pass, or its comment stands there. -/
theorem isPresent_or_mem_fixes (hv : v ∈ vs) :
    isPresent v content ∨ ∃ f ∈ fixes content vs, f.row = v.row := by
  cases hplan : plan v.ruleName v content with
  | none => exact .inl (plan_eq_none_iff.mp hplan)
  | some f =>
    exact .inr ⟨f, List.mem_filterMap.mpr ⟨v, hv, hplan⟩, (plan_puts hplan).2.1⟩

theorem newLines_eq (hf : f.replacement = text v) (h : '\n' ∉ v.checkId) :
    Edit.newLines f = [text v] := by
  have hlast : Text.dropEndWhile (· == '\r') (text v) = text v := by
    refine List.rdropWhile_eq_self_iff.mpr fun hne hcr => getLast?_text_ne_return v ?_
    rw [List.getLast?_eq_some_getLast hne, eq_of_beq hcr]
  rw [Edit.newLines, hf, List.splitOn_eq_singleton (mt newline_mem_text_iff.mp h),
    List.map_singleton, hlast]

theorem mem_order (h : ∀ v ∈ vs, IsMarkable (lines content) v)
    (hf : f ∈ Edit.order (fixes content vs)) :
    f.placement.inserts ∧ f.row < (lines content).length ∧ Edit.newLines f = [f.replacement] := by
  obtain ⟨v, hv, hplacement, hrow, htext⟩ := mem_fixes ((Edit.order_perm _).mem_iff.mp hf)
  have hv := h v hv
  refine ⟨by rw [hplacement]; rfl, ?_, ?_⟩
  · have hone := hv.one_le_line
    have hle := hv.line_le
    rw [hrow, Violation.row]
    omega
  · rw [newLines_eq htext hv.checkId, htext]

theorem row_moved (h : ∀ v ∈ vs, IsMarkable (lines content) v) (hv : 1 ≤ v.line) :
    (moved (fixes content vs) v).row =
      v.row + Edit.added (Edit.order (fixes content vs)) v.row := by
  have hone : ∀ f ∈ (Edit.order (fixes content vs)).filter (·.row ≤ v.row),
      (Edit.newLines f).length = 1 := by
    intro f hf
    rw [(mem_order h (List.mem_of_mem_filter hf)).2.2, List.length_singleton]
  have hadded : Edit.added (Edit.order (fixes content vs)) v.row =
      ((fixes content vs).filter (·.row ≤ v.row)).length := by
    rw [Edit.added, List.length_flatMap, List.map_congr_left hone, List.map_const',
      List.sum_replicate_nat, Nat.mul_one]
    exact ((Edit.order_perm _).filter _).length_eq
  rw [hadded, moved, Violation.row, Violation.row]
  dsimp only
  omega

end Fixes

section Second

variable {content : Text} {vs : List Violation} {v : Violation}

theorem pass_fixes (h : ∀ v ∈ vs, IsMarkable (lines content) v) :
    Edit.pass (lines content) (fixes content vs) =
      ⟨Edit.blocks (lines content) (Edit.order (fixes content vs)),
        Edit.order (fixes content vs), []⟩ := by
  refine Edit.pass_of_all_insert fun f hf => ?_
  obtain ⟨hinserts, hrow, -⟩ := mem_order h ((Edit.order_perm _).mem_iff.mpr hf)
  exact ⟨hinserts, Nat.le_of_lt hrow⟩

/-- After the pass a violation counts as marked if what stands right above its line is its
comment. -/
theorem isPresent_moved_iff (h : ∀ v ∈ vs, IsMarkable (lines content) v) (hv : v ∈ vs) :
    isPresent (moved (fixes content vs) v) (Edit.apply content (fixes content vs)).content ↔
      (Edit.above (lines content) (Edit.order (fixes content vs)) v.row).getLast?.map trim =
        some (text v) := by
  have hinserts : ∀ f ∈ Edit.order (fixes content vs), f.placement.inserts :=
    fun f hf => (mem_order h hf).1
  have hlines : (lines (Edit.apply content (fixes content vs)).content).map trim =
      (Edit.pass (lines content) (fixes content vs)).lines.map trim := by
    refine Edit.trim_lines_apply_of_all_insert fun f hf => ?_
    obtain ⟨hins, hrow, -⟩ := mem_order h ((Edit.order_perm _).mem_iff.mpr hf)
    exact ⟨hins, hrow⟩
  have hrow : v.row ≤ (lines content).length := by
    have := (h v hv).line_le
    rw [Violation.row]
    omega
  have htext : text (moved (fixes content vs) v) = text v := rfl
  rw [isPresent_iff, hlines, pass_fixes h, row_moved h (h v hv).one_le_line, htext]
  by_cases hpos : 0 < v.row + Edit.added (Edit.order (fixes content vs)) v.row
  · rw [and_iff_right hpos, List.getElem?_map, Edit.getElem?_blocks_above hinserts hrow hpos]
  · have hlength := Edit.length_above hinserts hrow
    have hnil : Edit.above (lines content) (Edit.order (fixes content vs)) v.row = [] :=
      List.eq_nil_of_length_eq_zero (by omega)
    simp [hpos, hnil]

/-- The pass leaves right above a line the comment that it made first there. -/
theorem plan_moved_eq_none_iff (h : ∀ v ∈ vs, IsMarkable (lines content) v) (hv : v ∈ vs) :
    plan v.ruleName (moved (fixes content vs) v)
        (Edit.apply content (fixes content vs)).content = none ↔
      ∀ f, (Edit.order (fixes content vs)).find? (·.row = v.row) = some f →
        f.replacement = text v := by
  rw [plan_eq_none_iff, isPresent_moved_iff h hv]
  cases hfirst : (Edit.order (fixes content vs)).find? (·.row = v.row) with
  | some f =>
    have hf : f ∈ Edit.order (fixes content vs) := List.mem_of_find?_eq_some hfirst
    obtain ⟨w, hw, -, -, hreplacement⟩ := mem_fixes ((Edit.order_perm _).mem_iff.mp hf)
    rw [Edit.getLast?_above_of_first hfirst, (mem_order h hf).2.2, List.getLast?_singleton,
      Option.map_some, hreplacement, trim_text_iff.mpr (h w hw).message]
    simp [hreplacement]
  | none =>
    have hnone : ∀ f ∈ Edit.order (fixes content vs), f.row ≠ v.row := by
      simpa using List.find?_eq_none.mp hfirst
    have hpresent : isPresent v content := by
      rcases isPresent_or_mem_fixes hv with hpresent | ⟨f, hf, hrow⟩
      · exact hpresent
      · exact absurd hrow (hnone f ((Edit.order_perm _).mem_iff.mpr hf))
    obtain ⟨hpos, hline⟩ := isPresent_iff.mp hpresent
    obtain ⟨i, hi⟩ := Nat.exists_eq_add_one_of_ne_zero (Nat.ne_of_gt hpos)
    have hlt : i < (lines content).length := by
      have := (h v hv).line_le
      rw [Violation.row] at hi
      omega
    rw [hi] at hnone hline
    rw [hi, Edit.getLast?_above_of_none (fun f hf => (mem_order h hf).1) hlt hnone,
      ← List.getElem?_map]
    simpa using hline

theorem all_settled_iff (h : ∀ v ∈ vs, IsMarkable (lines content) v) :
    (∀ v ∈ vs, plan v.ruleName (moved (fixes content vs) v)
        (Edit.apply content (fixes content vs)).content = none) ↔
      ∀ v ∈ vs, ∀ w ∈ vs, v.line = w.line → text v = text w := by
  constructor
  · -- both comments are what stands right above the line
    intro hall v hv w hw hline
    have hrow : v.row = w.row := by rw [Violation.row, hline, Violation.row]
    have hv' := (isPresent_moved_iff h hv).mp (plan_eq_none_iff.mp (hall v hv))
    have hw' := (isPresent_moved_iff h hw).mp (plan_eq_none_iff.mp (hall w hw))
    rw [hrow] at hv'
    exact Option.some.inj (hv'.symm.trans hw')
  · intro hsame v hv
    refine (plan_moved_eq_none_iff h hv).mpr fun f hf => ?_
    have hmem := (Edit.order_perm _).mem_iff.mp (List.mem_of_find?_eq_some hf)
    obtain ⟨w, hw, -, hrow, hreplacement⟩ := mem_fixes hmem
    have hfrow : f.row = v.row := by simpa using List.find?_some hf
    have hw' := (h w hw).one_le_line
    have hv' := (h v hv).one_le_line
    rw [hreplacement]
    refine hsame w hw v hv ?_
    rw [hrow, Violation.row, Violation.row] at hfrow
    omega

/-- The pass makes all fixes, and every marked line stands where `moved` puts its violation. A
second pass adds nothing exactly if the violations of each line have one comment in common. -/
theorem flagging_settled_iff (content : Text) (vs : List Violation)
    (h : ∀ v ∈ vs, IsMarkable (lines content) v) :
    let made := fixes content vs
    let out := Edit.apply content made
    (out.applied = Edit.order made ∧ out.skipped = []) ∧
    ((lines out.content).map trim = (Edit.pass (lines content) made).lines.map trim ∧
      ∀ v ∈ vs, (Edit.pass (lines content) made).lines[(moved made v).row]? =
        (lines content)[v.row]?) ∧
    (∀ v ∈ vs, plan v.ruleName (moved made v) out.content = none ↔
      ∀ f, (Edit.order made).find? (·.row = v.row) = some f → f.replacement = text v) ∧
    ((∀ v ∈ vs, plan v.ruleName (moved made v) out.content = none) ↔
      ∀ v ∈ vs, ∀ w ∈ vs, v.line = w.line → text v = text w) := by
  intro made out
  have hinserts : ∀ f ∈ Edit.order made, f.placement.inserts := fun f hf => (mem_order h hf).1
  refine ⟨?_, ⟨?_, fun v hv => ?_⟩, fun v hv => plan_moved_eq_none_iff h hv, all_settled_iff h⟩
  · have hpass := pass_fixes h
    simp only [out, Edit.apply, made, hpass, and_self]
  · refine Edit.trim_lines_apply_of_all_insert fun f hf => ?_
    obtain ⟨hinserts, hrow, -⟩ := mem_order h ((Edit.order_perm _).mem_iff.mpr hf)
    exact ⟨hinserts, hrow⟩
  · have hrow : v.row < (lines content).length := by
      have hone := (h v hv).one_le_line
      have hle := (h v hv).line_le
      rw [Violation.row]
      omega
    rw [pass_fixes h, row_moved h (h v hv).one_le_line]
    exact Edit.getElem?_blocks hinserts hrow

end Second

def sample (check : Text) (line : ℕ) : Violation where
  file := ⟨"a.adoc"⟩
  ruleName := Violation.ruleOfCheck check
  line := line
  column := 1
  message := "m"
  severity := .warning
  originalText := []
  suggestedText := none
  checkId := check
  link := none

theorem isMarkable_sample {ls : List Text} {check : Text} {line : ℕ} (hcheck : '\n' ∉ check)
    (hone : 1 ≤ line) (hle : line ≤ ls.length) : IsMarkable ls (sample check line) :=
  ⟨hone, hle, hcheck, show ¬ blank "m" by decide⟩

/-- Two reports of one check on a line and one on the line above. -/
theorem flagging_settled_twoLines :
    let content : Text := "= Title\nBody\n"
    let vs := [sample "Docs.BlockTitle" 2, sample "Docs.ShortDescription" 1,
      sample "Docs.BlockTitle" 2]
    (∀ v ∈ vs, IsMarkable (lines content) v) ∧ (fixes content vs).length = 3 ∧
      ∀ v ∈ vs, plan v.ruleName (moved (fixes content vs) v)
        (Edit.apply content (fixes content vs)).content = none := by
  intro content vs
  have hmarkable : ∀ v ∈ vs, IsMarkable (lines content) v := by
    simp only [vs, List.forall_mem_cons, List.not_mem_nil, false_implies, implies_true, and_true]
    refine ⟨?_, ?_, ?_⟩ <;> exact isMarkable_sample (by decide) (by decide) (by decide)
  refine ⟨hmarkable, rfl, (flagging_settled_iff content vs hmarkable).2.2.2.mpr ?_⟩
  decide

/-- Of two comments above one line only the lower one is seen again. -/
theorem flagging_repeated : ¬∀ (content : Text) (vs : List Violation),
    (∀ v ∈ vs, IsMarkable (lines content) v) →
      ∀ v ∈ vs, plan v.ruleName (moved (fixes content vs) v)
        (Edit.apply content (fixes content vs)).content = none := by
  intro h
  have hmarkable : ∀ v ∈ [sample "Docs.ShortDescription" 2, sample "Docs.BlockTitle" 2],
      IsMarkable (lines "= Title\nBody\n") v := by
    simp only [List.forall_mem_cons, List.not_mem_nil, false_implies, implies_true, and_true]
    refine ⟨?_, ?_⟩ <;> exact isMarkable_sample (by decide) (by decide) (by decide)
  have hsame := (all_settled_iff hmarkable).mp (h _ _ hmarkable)
    (sample "Docs.ShortDescription" 2) (by simp) (sample "Docs.BlockTitle" 2) (by simp) rfl
  exact absurd hsame (by decide)

end Errata.Rule.Annotation
