import Errata.Proofs.Edit.Blocks
import Errata.Proofs.Edit.Nearest
import Errata.Rule.Entity
import Mathlib.Data.List.TakeWhile

/-!
# The guard of entity replacements

The planner asks for permission at the reported column, and the replacement is made where the entity
is found from there. The two places differ when the report is off, so the guard speaks for the text
that is rewritten exactly if that text does not stand in an inline literal.
-/
namespace Errata.Rule.Entity

open Text Edit

/-- The name of a matched entity as it is searched for, without blanks and terminators. -/
def bare (matched : Text) : Text := dropEndWhile (· == ';') (trim matched)

theorem dropEndWhile_isPrefix (p : Char → Bool) (t : Text) : dropEndWhile p t <+: t := by
  have h := List.reverse_prefix.mpr (List.dropWhile_suffix p (l := t.reverse))
  rwa [List.reverse_reverse] at h

theorem head?_eq_of_isPrefix {a b : Text} (ha : a ≠ []) (h : a <+: b) : a.head? = b.head? := by
  obtain ⟨rest, rfl⟩ := h
  exact (List.head?_append_of_ne_nil _ ha).symm

theorem replacement?_eq_some {matched r : Text} (h : replacement? matched = some r) :
    (trim matched).head? = some '&' ∧ r.head? = some '\x7b' := by
  obtain ⟨entry, hfind, rfl⟩ := Option.map_eq_some_iff.mp h
  have heq := List.find?_some hfind
  simp only [beq_iff_eq] at heq
  refine ⟨?_, by simp [referenceText]⟩
  have hhead : (entityText entry.1).head? = some '&' := by simp [entityText]
  rw [heq] at hhead
  split at hhead
  · exact hhead
  · cases hm : trim matched with
    | nil => simp [hm] at hhead
    | cons c m => simpa [hm] using hhead

theorem bare_ne_nil {matched r : Text} (h : replacement? matched = some r) : bare matched ≠ [] := by
  intro hnil
  have hall : ∀ c ∈ trim matched, c = ';' := by
    simpa [bare, dropEndWhile, List.dropWhile_eq_nil_iff] using hnil
  have hmem := List.mem_of_mem_head? (replacement?_eq_some h).1
  exact absurd (hall '&' hmem) (by decide)

theorem replacement_ne_nil {matched r : Text} (h : replacement? matched = some r) : r ≠ [] := by
  rintro rfl
  simpa using (replacement?_eq_some h).2

theorem written_eq (line : Text) (column : ℕ) (matched : Text) :
    written line column matched =
      match findNear? (bare matched) column line with
      | some start =>
        if (line.drop (start + (bare matched).length)).head? = some ';' then bare matched ++ [';']
        else bare matched
      | none => trim matched := rfl

theorem bare_prefix_written (line : Text) (column : ℕ) (matched : Text) :
    bare matched <+: written line column matched := by
  rw [written_eq]
  split
  · split
    · exact List.prefix_append _ _
    · exact List.prefix_rfl
  · exact dropEndWhile_isPrefix _ _

theorem head_written_ne {line matched r : Text} {column : ℕ} (h : replacement? matched = some r) :
    (written line column matched).head? ≠ r.head? := by
  obtain ⟨hmatched, href⟩ := replacement?_eq_some h
  have hbare : (bare matched).head? = some '&' := by
    rw [← hmatched]
    exact head?_eq_of_isPrefix (bare_ne_nil h) (dropEndWhile_isPrefix _ _)
  rw [← head?_eq_of_isPrefix (bare_ne_nil h) (bare_prefix_written line column matched), hbare, href]
  decide

/-- Planner and editor look for different texts and find them at the same place. -/
theorem findNear?_written {line matched : Text} {column : ℕ} (hb : bare matched ≠ []) :
    findNear? (written line column matched) column line =
      findNear? (bare matched) column line := by
  have hpre := bare_prefix_written line column matched
  cases hf : findNear? (bare matched) column line with
  | none => exact findNear?_eq_none_of_isPrefix hb hpre hf
  | some start =>
    have hocc : OccursAt (bare matched) line start := ((findNear?_eq_some_iff hb).mp hf).1
    refine findNear?_of_isPrefix hb hpre hf ?_
    simp only [written_eq, hf]
    split
    · next hc => exact hocc.append_singleton hc
    · exact hocc

theorem plan_eq_some {v : Violation} {content : Text} {f : Fix} (h : plan v content = some f) :
    replacement? v.originalText = some f.replacement ∧
      Markup.mayReplace (lines content) v.row v.col = true ∧
      f.violation = v ∧ f.placement = .atMatch ∧
      ∀ line, (lines content)[v.row]? = some line →
        f.needle = written line v.col v.originalText := by
  simp only [plan, Option.bind_eq_bind, Option.bind_eq_some_iff] at h
  obtain ⟨r, hr, h⟩ := h
  split at h
  · next hallowed =>
    obtain rfl := Option.some.inj h
    refine ⟨hr, hallowed, rfl, rfl, fun line hline => ?_⟩
    simp [Fix.needle, Fix.setTarget, hline]
  · exact absurd h (by simp)

theorem plan_eq_none {v : Violation} (h : replacement? v.originalText = none) (content : Text) :
    plan v content = none := by
  simp [plan, h]

theorem mayReplace_iff {lines : List Text} {row column column' : ℕ} {line : Text}
    (hline : lines[row]? = some line) (h : Markup.mayReplace lines row column = true) :
    Markup.mayReplace lines row column' = true ↔ Markup.Inline.isLiteral line column' = false := by
  unfold Markup.mayReplace at *
  simp only [hline, Option.any_some] at *
  cases hcol : Markup.Inline.isLiteral line column with
  | true => simp [hcol] at h
  | false =>
    simp only [hcol, Bool.false_eq_true, if_false] at h
    cases Markup.Inline.isLiteral line column' with
    | true => simp
    | false => simpa using h

/-- Making `f` alone rewrites the occurrence of its text at `start` in its line, nothing else. -/
def Rewrites (content : Text) (f : Fix) (start : ℕ) : Prop :=
  ∃ line, (lines content)[f.row]? = some line ∧ OccursAt f.needle line start ∧
    (pass (lines content) [f]).lines =
      (lines content).set f.row (overwrite line start f.needle.length f.replacement)

theorem pass_atMatch {ls : List Text} {f : Fix} {line : Text} (hp : f.placement = .atMatch)
    (hn : f.needle ≠ []) (hline : ls[f.violation.row]? = some line) :
    pass ls [f] =
      match findNear? f.needle f.violation.col line with
      | some start =>
        ⟨ls.set f.violation.row (overwrite line start f.needle.length f.replacement), [f], []⟩
      | none => ⟨ls, [], [f]⟩ := by
  rw [pass_singleton, Progress.step]
  simp only [make?, hp, hline, overwriteNear?_eq, List.isEmpty_iff, hn, if_false, Option.bind_eq_bind,
    Option.bind_some]
  cases findNear? f.needle f.violation.col line <;> simp

/-- What a planned replacement rewrites is the occurrence of the bare entity that is meant. -/
theorem rewrites_iff {v : Violation} {content line : Text} {f : Fix} {start : ℕ}
    (h : plan v content = some f) (hline : (lines content)[v.row]? = some line) :
    Rewrites content f start ↔ IsNearest (bare v.originalText) line v.col start := by
  obtain ⟨hr, -, rfl, hp, hneedle⟩ := plan_eq_some h
  have hneedle := hneedle line hline
  have hrow : f.row = f.violation.row := by simp [Fix.row, hp]
  have hb := bare_ne_nil hr
  have hpre : bare f.violation.originalText <+: f.needle :=
    hneedle ▸ bare_prefix_written _ _ _
  have hn : f.needle ≠ [] := fun hnil => hb (List.eq_nil_of_prefix_nil (hnil ▸ hpre))
  have hsite : findNear? f.needle f.violation.col line =
      findNear? (bare f.violation.originalText) f.violation.col line := by
    rw [hneedle, findNear?_written hb]
  have hpass := pass_atMatch hp hn hline
  rw [← findNear?_eq_some_iff hb, ← hsite]
  constructor
  · rintro ⟨line', hline', hocc, hmade⟩
    obtain rfl : line = line' := Option.some.inj (hline.symm.trans (hrow ▸ hline'))
    cases hs : findNear? f.needle f.violation.col line with
    | none => exact absurd hocc ((findNear?_eq_none_iff hn).mp hs start)
    | some s =>
      have hocc' : OccursAt f.needle line s := ((findNear?_eq_some_iff hn).mp hs).1
      obtain ⟨hlt, -⟩ := List.getElem?_eq_some_iff.mp hline
      have heq : overwrite line s f.needle.length f.replacement =
          overwrite line start f.needle.length f.replacement := by
        rw [hpass, hs, hrow] at hmade
        have hat := congrArg (·[f.violation.row]?) hmade
        simpa [hlt] using hat
      rw [overwrite_inj hn (replacement_ne_nil hr) (hneedle ▸ head_written_ne hr) hocc' hocc heq]
  · intro hs
    refine ⟨line, by rwa [hrow], ((findNear?_eq_some_iff hn).mp hs).1, ?_⟩
    rw [hpass, hs, hrow]

/-- When the guard speaks for the text that is rewritten: exactly if the occurrence of the bare
entity that the report means does not stand in an inline literal of its line. -/
theorem guard_covers_rewrite_iff {v : Violation} {content : Text} {f : Fix}
    (h : plan v content = some f) :
    (∀ start, Rewrites content f start →
      Markup.mayReplace (lines content) v.row start = true) ↔
    ∀ line start, (lines content)[v.row]? = some line →
      IsNearest (bare v.originalText) line v.col start →
      Markup.Inline.isLiteral line start = false := by
  obtain ⟨-, hguard, hv, hp, -⟩ := plan_eq_some h
  constructor
  · intro hcover line start hline hnear
    exact (mayReplace_iff hline hguard).mp (hcover start ((rewrites_iff h hline).mpr hnear))
  · rintro hliteral start hmade
    obtain ⟨line, hline, -⟩ := id hmade
    rw [show f.row = v.row by simp [Fix.row, hp, hv]] at hline
    exact (mayReplace_iff hline hguard).mpr
      (hliteral line start hline ((rewrites_iff h hline).mp hmade))

/-- A report of `&nbsp;` at the start of the first line, wherever the entity stands in it. -/
def earlyReport : Violation where
  file := "a.adoc"
  ruleName := "EntityReference"
  line := 1
  column := 1
  message := []
  severity := .error
  originalText := "&nbsp;"
  suggestedText := none
  checkId := "AsciiDocDITA.EntityReference"
  link := none

/-- The first occurrence behind the report stands in prose, though another one is code. -/
theorem guard_covers_prose_occurrence :
    ∃ f, plan earlyReport "a &nbsp; b `&nbsp;`" = some f ∧
      ∀ start, Rewrites "a &nbsp; b `&nbsp;`" f start →
        Markup.mayReplace (lines "a &nbsp; b `&nbsp;`") 0 start = true := by
  obtain ⟨f, hf⟩ := Option.isSome_iff_exists.mp
    (show (plan earlyReport "a &nbsp; b `&nbsp;`").isSome from by decide +kernel)
  refine ⟨f, hf, (guard_covers_rewrite_iff hf).mpr ?_⟩
  intro line start hline hnear
  obtain rfl : "a &nbsp; b `&nbsp;`" = line :=
    Option.some.inj ((show (lines "a &nbsp; b `&nbsp;`")[earlyReport.row]? = _ from
      by decide +kernel).symm.trans hline)
  have hat : findNear? (bare earlyReport.originalText) earlyReport.col "a &nbsp; b `&nbsp;`" =
      some 2 := by decide +kernel
  obtain rfl : 2 = start :=
    ((findNear?_eq_some_iff (by decide +kernel)).mp hat).unique hnear
  decide +kernel

/-- An entity in a code span is rewritten, on the strength of a column before the span. -/
theorem guard_misses_code_span :
    ∃ f, plan earlyReport "x `&nbsp;`" = some f ∧ Rewrites "x `&nbsp;`" f 3 ∧
      Markup.mayReplace (lines "x `&nbsp;`") earlyReport.row 3 = false := by
  obtain ⟨f, hf⟩ := Option.isSome_iff_exists.mp
    (show (plan earlyReport "x `&nbsp;`").isSome from by decide +kernel)
  refine ⟨f, hf, ?_, by decide +kernel⟩
  have hline : (lines "x `&nbsp;`")[earlyReport.row]? = some ("x `&nbsp;`" : Text) := by
    decide +kernel
  rw [rewrites_iff hf hline, ← findNear?_eq_some_iff (by decide +kernel)]
  decide +kernel

end Errata.Rule.Entity
