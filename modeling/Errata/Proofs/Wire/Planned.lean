import Errata.Proofs.Rule.DeclarationPlace
import Errata.Proofs.Run.Plans
import Errata.Proofs.Wire.RoundTrip

/-!
# What the built-in rules plan survives as a text

The built-in rules are sure of a fix in one of four degrees, and the numerals of all four give them
back. Their placements stay within the lines of the document.
-/
namespace Errata

open Json Text

namespace Rule

variable {v : Violation} {content : Text} {f : Fix}

/-- How sure the built-in rules are of their fixes. -/
def confidences : List Float := [1, 0.9, 0.8, 0.3]

theorem isCarried_of_mem_confidences {x : Float} (h : x ∈ confidences) : IsCarried x := by
  have hdigit : ∀ c : Char, c.isDigit → IsNumeral [c] := fun c hc => ⟨nofun, by simpa using hc⟩
  simp only [confidences, List.mem_cons, List.not_mem_nil, or_false] at h
  rcases h with rfl | rfl | rfl | rfl
  · exact isCarried_of_decimal (d := '1') rfl (hdigit '0' rfl) (by decide +kernel)
      (by decide +kernel)
  · exact isCarried_of_decimal (d := '0') rfl (hdigit '9' rfl) (by decide +kernel)
      (by decide +kernel)
  · exact isCarried_of_decimal (d := '0') rfl (hdigit '8' rfl) (by decide +kernel)
      (by decide +kernel)
  · exact isCarried_of_decimal (d := '0') rfl (hdigit '3' rfl) (by decide +kernel)
      (by decide +kernel)

theorem setConfidence_of_mem_confidences {x : Float} (h : x ∈ confidences) :
    (f.setConfidence x).confidence = x := by
  have hkept : ∀ x ∈ confidences,
      (if x.isNaN then 0 else if x < 0 then 0 else if 1 < x then 1 else x) = x := by
    decide +kernel
  exact hkept x h

/-- A fix whose confidence is one of these and whose line is one of the document or behind it. -/
structure IsOrdinary (content : Text) (f : Fix) : Prop where
  confidence : f.confidence ∈ confidences
  placement : ∀ line ∈ f.placement.line?, line ≤ (lines content).length

theorem Entity.isOrdinary_of_plan (h : plan v content = some f) : IsOrdinary content f := by
  simp only [plan, Option.bind_eq_bind, Option.bind_eq_some_iff] at h
  obtain ⟨r, -, h⟩ := h
  split at h
  · obtain rfl := Option.some.inj h
    exact ⟨List.mem_cons_self, fun _ hline => by cases hline⟩
  · cases h

theorem Annotation.isOrdinary_of_plan {name : Text} (h : plan name v content = some f) :
    IsOrdinary content f := by
  simp only [plan] at h
  split at h
  · cases h
  · obtain rfl := Option.some.inj h
    exact ⟨List.mem_cons_self, fun _ hline => by cases hline⟩

namespace ContentType

theorem confidence_choose_mem (ds : List Declaration) (file : Path) :
    (choose ds file).confidence ∈ confidences := by
  apply choose_induction (P := fun c => c.confidence ∈ confidences)
  all_goals
    intros
    simp [confidences]

theorem isOrdinary_of_plan (h : plan v content = some f) : IsOrdinary content f := by
  have hconfidence := confidence_choose_mem (declarations (lines content)) v.file
  simp only [plan] at h
  split at h
  · cases h
  · obtain rfl := Option.some.inj h
    constructor
    · simp only [Fix.setDescription, Fix.setReview]
      rwa [setConfidence_of_mem_confidences hconfidence]
    · intro line hline
      cases htarget : (((List.find? (·.source == .active) (declarations (lines content))).map
          (·.line)).or (choose (declarations (lines content)) v.file).foundAt).or
          ((declarations (lines content)).head?.map (·.line)) with
      | none =>
        simp only [Fix.setDescription, Fix.setReview, Fix.setConfidence, Fix.new, htarget] at hline
        obtain rfl := Option.some.inj hline
        exact insertionLine_le (lines content)
      | some target =>
        simp only [Fix.setDescription, Fix.setReview, Fix.setConfidence, Fix.new, htarget] at hline
        obtain rfl := Option.some.inj hline
        obtain ⟨d, hd, rfl⟩ := exists_declaration_of_target htarget
        exact (line_lt_of_mem_declarations hd).le

end ContentType

theorem isOrdinary_of_builtin {rule : Rule} (hrule : rule ∈ Registry.builtin.rules)
    (h : rule.plan v content = some f) : IsOrdinary content f := by
  rcases Registry.mem_builtin hrule with rfl | rfl | ⟨name, dependencies, rfl⟩
  · exact Entity.isOrdinary_of_plan h
  · exact ContentType.isOrdinary_of_plan h
  · exact Annotation.isOrdinary_of_plan h

end Rule

/-- Fixes that the built-in rules plan for violations that fit survive as texts, in every document
whose lines a word can count. -/
theorem Planner.survivesText_of_mem_fixes {selected : Option Text} {vs : List Violation}
    {content : Text} (hvs : ∀ v ∈ vs, v.Fits) (hlines : (lines content).length < UInt64.size)
    {f : Fix} (hf : f ∈ (new Registry.builtin selected).fixes vs content) :
    SurvivesText Fix.toJson Fix.ofJson? f := by
  obtain ⟨rule, hrule, v, -, hplan⟩ := exists_plan_of_mem_fixes hf
  obtain ⟨hconfidence, hplacement⟩ := Rule.isOrdinary_of_builtin hrule hplan
  have hcarried : IsCarried f.confidence := Rule.isCarried_of_mem_confidences hconfidence
  have hfits : f.Fits := {
    violation := hvs _ (violation_mem_of_mem_fixes Registry.builtin_keepsViolations hf)
    placement := fun line hline => Nat.lt_of_le_of_lt (hplacement line hline) hlines
    confidence := hcarried.isFinite }
  exact survivesText_of_writable (Fix.writable hfits hcarried) (by decide)
    (Fix.ofJson?_toJson hfits)

end Errata
