import Errata.Proofs.Rule.Endings
import Errata.Proofs.Run.Listing
import Errata.Proofs.Run.Plans
import Errata.Run.Work

/-!
# Line endings of rewritten files

A pass joins all lines of a text with one terminator, so a text with two of them does not even
survive a pass in which no fix is made. One whose terminators are all of one kind keeps them: the
fixes that the built-in rules plan, whatever the linter reports, leave alone how its lines end.
-/
namespace Errata

open Text (lines EndsAlike ReturnsEndLines)
open Edit (KeepsEndings)

namespace Edit

/-- Every line that is left alone stands in its place in the outcome. It has kept its terminator
exactly if that is the one the outcome is joined with, and where no fix is made the text has stayed
the same exactly if that holds of all its lines: then the file is not written either. -/
theorem untouched_kept_iff (content : Text) (fixes : List Fix) :
    let out := apply content fixes
    out.content = (places content fixes).flatten.flatMap Line.chars ∧
    (∀ i l, (Text.cut content)[i]? = some l → out.LeavesAlone i →
      ∃ inserted e, (places content fixes)[i]? = some (inserted ++ [⟨l.text, e⟩]) ∧
        (e = l.ending ∨ l.ending = .unterminated ↔
          l.ending = ending content ∨ l.ending = .unterminated)) ∧
    (out.applied = [] →
      (out.content = content ↔ EndsAlike (ending content) content) ∧
      (EndsAlike (ending content) content → ∀ (w : Work) (file : Path) (encoding : Encoding),
        w.rewrite file ⟨⟨content, encoding⟩, fixes⟩ = (.done, w.addSkipped out.skipped))) := by
  intro out
  refine ⟨apply_content content fixes, ?_, fun hnone => ⟨content_eq_iff_of_none_made hnone, ?_⟩⟩
  · intro i l hl halone
    obtain ⟨inserted, e, hplace, he⟩ := places_of_leavesAlone hl halone
    refine ⟨inserted, e, hplace, ?_⟩
    rcases he with rfl | ⟨rfl, hopen⟩
    · rw [eq_comm (a := ending content)]
    · simp [hopen]
  · intro halike w file encoding
    have hsame : out.content = content := (content_eq_iff_of_none_made hnone).mpr halike
    simp only [Work.rewrite, out] at hsame hnone ⊢
    rw [if_pos hsame, hnone]
    simp [Work.addApplied, Work.addSkipped]

/-- The text has both terminators, so one of its lines gets the other one. -/
theorem mixed_terminators_lost : ¬∀ (content : Text) (fixes : List Fix),
    (apply content fixes).applied = [] → (apply content fixes).content = content := by
  intro h
  have hlost : (apply "a\r\nb\n" []).applied = [] ∧ (apply "a\r\nb\n" []).content ≠ "a\r\nb\n" := by
    decide +kernel
  exact hlost.2 (h _ _ hlost.1)

end Edit

theorem Rule.keepsEndings_of_builtin {v : Violation} {content : Text} {f : Fix} {rule : Rule}
    (hrule : rule ∈ Registry.builtin.rules)
    (h : rule.plan v content = some f) : KeepsEndings (lines content).length f := by
  rcases Registry.mem_builtin hrule with rfl | rfl | ⟨name, dependencies, rfl⟩
  · exact Entity.keepsEndings_of_plan h _
  · exact ContentType.keepsEndings_of_plan h
  · exact Annotation.keepsEndings_of_plan h _

/-- A text whose terminators are all of one kind, and in which carriage returns belong to them, gets
no terminator of another kind from the fixes that the built-in rules plan for it. It ends in a
newline afterwards exactly if it did before. -/
theorem Planner.endings_kept (selected : Option Text) (vs : List Violation) {content : Text}
    (hne : content ≠ []) (hreturns : ReturnsEndLines content)
    (halike : EndsAlike .lf content ∨ EndsAlike .crlf content) :
    let out := (Edit.apply content ((new Registry.builtin selected).fixes vs content)).content
    EndsAlike (Edit.ending content) content ∧ EndsAlike (Edit.ending content) out ∧
      Text.endsInNewline out = Text.endsInNewline content := by
  intro out
  have hfixes : ∀ f ∈ (new Registry.builtin selected).fixes vs content,
      KeepsEndings (lines content).length f := by
    intro f hf
    obtain ⟨rule, hrule, v, -, hplan⟩ := exists_plan_of_mem_fixes hf
    exact Rule.keepsEndings_of_builtin hrule hplan
  obtain ⟨hcut, hclosed⟩ := Edit.cut_apply_of_keepsEndings hne hreturns hfixes
  refine ⟨Edit.endsAlike_ending halike, fun l hl => ?_, hclosed⟩
  rw [hcut] at hl
  exact Text.ending_of_mem_typeset hl

/-- A declaration with an empty line behind it, a reference, and a comment that is broken in two by
the name of its check, in a text whose last line is open. -/
theorem Planner.endings_kept_openCrlf :
    let content : Text := "= Title\r\nA &amp; B\r\nC"
    let vs := [reportAt "Docs.ContentType" [] 1 1, reportAt "Docs.EntityReference" "&amp;" 2 3,
      reportAt "Docs\r\n.BlockTitle" [] 3 1]
    let fixes := (new Registry.builtin none).fixes vs content
    fixes.length = 3 ∧ Edit.ending content = .crlf ∧
      EndsAlike .crlf (Edit.apply content fixes).content ∧
      Text.endsInNewline (Edit.apply content fixes).content = false := by
  intro content vs fixes
  have hlength : fixes.length = 3 := by decide +kernel
  have hending : Edit.ending content = .crlf := by decide +kernel
  have halike : EndsAlike .crlf content := by decide +kernel
  have hne : content ≠ [] := by decide
  have hreturns : ReturnsEndLines content := by decide +kernel
  obtain ⟨-, halikeOut, hclosed⟩ := endings_kept none vs hne hreturns (.inr halike)
  rw [hending] at halikeOut
  exact ⟨hlength, hending, halikeOut, hclosed.trans (by decide +kernel)⟩

end Errata
