import Errata.Proofs.Edit.Endings
import Errata.Proofs.Rule.Annotations
import Errata.Proofs.Rule.Declarations
import Errata.Proofs.Rule.EntityGuard

/-!
# Line endings of planned texts

The texts of references and declarations are known, a comment ends in its message or in the blank
before it, and the empty line behind a declaration is only put in above a line. The name of a check
may hold line breaks; they break the comment into lines like any other.
-/
namespace Errata.Rule

open Text (lines)
open Edit (KeepsEndings IsSolid)

variable {v : Violation} {content : Text} {f : Fix}

theorem Entity.keepsEndings_of_plan (h : plan v content = some f) (n : ℕ) : KeepsEndings n f := by
  have hreferences : ∀ entry ∈ attributes, '\n' ∉ referenceText entry.2 ∧
      (referenceText entry.2).getLast? = some '\x7d' := by
    decide
  obtain ⟨hreplacement, -, -, hplacement, -⟩ := plan_eq_some h
  obtain ⟨entry, hentry, hreference⟩ := Option.map_eq_some_iff.mp hreplacement
  obtain ⟨hnewline, hlast⟩ := hreferences entry (List.mem_of_find?_eq_some hentry)
  rw [hreference] at hnewline hlast
  simp only [KeepsEndings, hplacement]
  exact ⟨hnewline, _, hlast, by decide, by decide⟩

namespace Annotation

theorem isSolid_text (v : Violation) : IsSolid (text v) := by
  rw [text_eq]
  cases hmessage : (Text.trim (message v)).getLast? with
  | none =>
    have hnil : Text.trim (message v) = [] := List.getLast?_eq_none_iff.mp hmessage
    rw [hnil, List.append_nil]
    exact .append ⟨' ', rfl, by decide, by decide⟩ _
  | some c =>
    have hblank := (Text.trim_eq_self_iff.mp (Text.trim_trim (message v))).2 c hmessage
    refine .append ⟨c, hmessage, ?_, ?_⟩ _
    · rintro rfl
      exact hblank (by decide)
    · rintro rfl
      exact hblank (by decide)

theorem keepsEndings_of_plan {name : Text} (h : plan name v content = some f) (n : ℕ) :
    KeepsEndings n f := by
  simp only [plan] at h
  split at h
  · cases h
  · obtain rfl := Option.some.inj h
    exact .inr (isSolid_text v)

end Annotation

namespace ContentType

theorem isSolid_declaration (ls : List Text) (file : Path) :
    IsSolid (attributeName ++ [' '] ++ (choose (declarations ls) file).type) := by
  have hlast : ∀ type ∈ placeholder :: types,
      type.getLast?.any fun c => c ≠ '\n' ∧ c ≠ '\r' := by
    decide
  obtain ⟨c, hc, hne⟩ := (Option.any_eq_true _ _).mp (hlast _ (type_choose_mem ls file))
  exact .append ⟨c, hc, of_decide_eq_true hne⟩ _

theorem keepsEndings_of_plan (h : plan v content = some f) :
    KeepsEndings (lines content).length f := by
  have hsolid := isSolid_declaration (lines content) v.file
  simp only [plan] at h
  split at h
  · cases h
  · obtain rfl := Option.some.inj h
    cases htarget : (((List.find? (·.source == .active) (declarations (lines content))).map
        (·.line)).or (choose (declarations (lines content)) v.file).foundAt).or
        ((declarations (lines content)).head?.map (·.line)) with
    | some line =>
      simp only [KeepsEndings, Fix.setDescription, Fix.setReview, Fix.setConfidence, Fix.new]
      exact hsolid
    | none =>
      simp only [KeepsEndings, Fix.setDescription, Fix.setReview, Fix.setConfidence, Fix.new]
      by_cases hspaced :
          (lines content)[insertionLine (lines content)]?.any fun next => !Text.blank next
      · obtain ⟨next, hnext, -⟩ := (Option.any_eq_true _ _).mp hspaced
        exact .inl (List.getElem?_eq_some_iff.mp hnext).1
      · refine .inr ?_
        rw [if_neg hspaced]
        exact hsolid

end ContentType

end Errata.Rule
