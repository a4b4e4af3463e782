import Errata.Proofs.Rule.Redeclaration

/-!
# Declaring a content type a second time

After a run the first active declaration of a document is the one that was written. If its type is
known, a second run plans nothing. If not, it is the placeholder; the file name still tells nothing
and no other line has a type to offer, so a second run writes the same line again.
-/
namespace Errata.Rule.ContentType

open Markup Text

theorem plan_eq_none_iff {v : Violation} {content : Text} :
    plan v content = none ↔ ∃ d ∈ active (lines content), d.type.isSome = true := by
  have hany : (declarations (lines content)).any (fun d => d.source == .active && d.type.isSome) =
      true ↔ ∃ d ∈ active (lines content), d.type.isSome = true := by
    simp [active, List.any_eq_true, and_assoc]
  rw [← hany]
  unfold plan
  dsimp only
  split <;> simp_all

theorem choiceFrom?_eq_none_iff {ds : List Declaration} {source : Source} {reason : Text} :
    choiceFrom? ds source reason = none ↔ ∀ d ∈ ds, d.source = source → d.type = none := by
  simp [choiceFrom?, List.findSome?_eq_none_iff]

theorem exists_of_choiceFrom? {ds : List Declaration} {source : Source} {reason : Text} {c : Choice}
    (h : choiceFrom? ds source reason = some c) :
    ∃ d ∈ ds, d.source = source ∧ d.type = some c.type := by
  obtain ⟨d, hd, hc⟩ := List.exists_of_findSome?_eq_some h
  split at hc
  · next hsource =>
    obtain ⟨type, htype, rfl⟩ := Option.map_eq_some_iff.mp hc
    exact ⟨d, hd, hsource, htype⟩
  · cases hc

theorem placeholder_ne {type : Text} (h : type ∈ types) : type ≠ placeholder := by
  have hall : ∀ type ∈ types, type ≠ placeholder := by decide
  exact hall type h

theorem type_choose_eq_placeholder_iff {ls : List Text} {file : Path} :
    (choose (declarations ls) file).type = placeholder ↔
      (∀ d ∈ declarations ls, d.source ≠ .active → d.type = none) ∧ ofFileName? file = none := by
  -- A declaration that is chosen from offers a type, which is not the placeholder.
  have hdeclared : ∀ source reason c, source ≠ .active →
      choiceFrom? (declarations ls) source reason = some c →
      (c.type = placeholder ↔
        (∀ d ∈ declarations ls, d.source ≠ .active → d.type = none) ∧ ofFileName? file = none) := by
    intro source reason c hsource hc
    obtain ⟨d, hd, rfl, htype⟩ := exists_of_choiceFrom? hc
    refine iff_of_false (placeholder_ne (type_of_mem_declarations hd htype)) fun ⟨hnone, _⟩ => ?_
    rw [hnone d hd hsource] at htype
    cases htype
  unfold choose
  cases hcommented :
      choiceFrom? (declarations ls) .commented "uncommented existing declaration" with
  | some c => exact hdeclared _ _ c (by simp) hcommented
  | none =>
    cases hformer : choiceFrom? (declarations ls) .formerName "renamed deprecated attribute" with
    | some c => exact hdeclared _ _ c (by simp) hformer
    | none =>
      cases hfile : ofFileName? file with
      | some type => exact iff_of_false (placeholder_ne (ofFileName?_mem hfile)) (by simp)
      | none =>
        refine iff_of_true rfl ⟨fun d hd hsource => ?_, rfl⟩
        cases hcase : d.source with
        | active => exact absurd hcase hsource
        | commented => exact choiceFrom?_eq_none_iff.mp hcommented d hd hcase
        | formerName => exact choiceFrom?_eq_none_iff.mp hformer d hd hcase

theorem target_of_plan {v : Violation} {content : Text} {f : Fix} (h : plan v content = some f)
    (hne : declarations (lines content) ≠ []) :
    ∃ d ∈ declarations (lines content), f.placement = .replaceLine d.line ∧
      f.replacement = declarationOf (choose (declarations (lines content)) v.file).type ∧
      (active (lines content) = [] ∨ (active (lines content)).head? = some d) := by
  cases hactive : (active (lines content)).head? with
  | some d =>
    obtain ⟨hplacement, hreplacement⟩ := plan_of_active h hactive
    exact ⟨d, (List.mem_filter.mp (List.mem_of_head? hactive)).1, hplacement, hreplacement,
      .inr rfl⟩
  | none =>
    simp only [plan] at h
    split at h
    · cases h
    · obtain rfl := Option.some.inj h
      cases htarget : (((List.find? (·.source == .active) (declarations (lines content))).map
          (·.line)).or (choose (declarations (lines content)) v.file).foundAt).or
          ((declarations (lines content)).head?.map (·.line)) with
      | none =>
        rw [Option.or_eq_none_iff, Option.map_eq_none_iff, List.head?_eq_none_iff] at htarget
        exact absurd htarget.2 hne
      | some line =>
        obtain ⟨d, hd, rfl⟩ := exists_declaration_of_target htarget
        simp only [Fix.setDescription, Fix.setReview, Fix.setConfidence, Fix.new]
        exact ⟨d, hd, rfl, rfl, .inl (List.head?_eq_none_iff.mp hactive)⟩

theorem eq_of_line_eq {ls : List Text} {d d' : Declaration} (hd : d ∈ declarations ls)
    (hd' : d' ∈ declarations ls) (h : d.line = d'.line) : d = d' := by
  have hline : ∀ d ∈ declarations ls, (ls[d.line]?).bind (declarationAt? d.line) = some d := by
    intro d hd
    rw [declarations_eq] at hd
    obtain ⟨above, line, below, rfl, hlength, -, -, hdeclares⟩ := exists_split_of_mem hd
    rw [Nat.zero_add] at hlength
    rw [hlength] at hdeclares
    simpa [hlength] using hdeclares
  have hboth := (hline d hd).symm.trans (h ▸ hline d' hd')
  exact Option.some.inj hboth

/-- The first active declaration of a text is the one in line `n`, which declares `type`; if that is
the placeholder no declaration has a type. -/
structure IsDeclared (content : Text) (n : ℕ) (type : Text) : Prop where
  line : (lines content)[n]? = some (declarationOf type)
  first : (active (lines content)).head? = some ⟨n, .active, types.find? (· == type)⟩
  unknown : type = placeholder → ∀ d ∈ declarations (lines content), d.type = none

section First

variable {v : Violation} {content : Text} {f : Fix}

theorem type_eq_none_of_placeholder (h : plan v content = some f)
    (htype : (choose (declarations (lines content)) v.file).type = placeholder)
    {d : Declaration} (hd : d ∈ declarations (lines content)) : d.type = none := by
  by_cases hactive : d.source = .active
  · by_contra hsome
    have hnone : plan v content = none := plan_eq_none_iff.mpr
      ⟨d, List.mem_filter.mpr ⟨hd, by simp [hactive]⟩, Option.isSome_iff_ne_none.mpr hsome⟩
    rw [hnone] at h
    cases h
  · exact (type_choose_eq_placeholder_iff.mp htype).1 d hd hactive

theorem PutsIn.isDeclared {n : ℕ} (h : PutsIn f content n)
    (hopen : commentOpen ((lines content).take n) = false) :
    IsDeclared (Edit.apply content [f]).content n
      ((ofFileName? f.violation.file).getD placeholder) := by
  have hdeclarations := h.declarations_eq
  rw [hopen, if_neg Bool.false_ne_true] at hdeclarations
  refine ⟨?_, ?_, fun hunknown => ?_⟩
  · -- Nothing is taken off the end of the declaration.
    have hput : (Edit.inserted (lines content) f)[n]? =
        some (declarationFor f.violation.file) := by
      have hfirst := h.getElem?_inserted 0
      rwa [h.newLines, List.cons_append, List.getElem?_cons_zero] at hfirst
    obtain ⟨line, hline, hrereads⟩ := getElem?_of_rereads h.rereads_lines hput
    rw [hline, hrereads.eq, declarationFor_eq]
    exact (isProper_declarationOf (typeFor_mem f.violation.file) .lf).lf rfl
  · rw [active, hdeclarations, find?_typeFor]
    rfl
  · rw [hdeclarations]
    have hnone : ofFileName? f.violation.file = none := by
      cases hfile : ofFileName? f.violation.file with
      | none => rfl
      | some type =>
        rw [hfile] at hunknown
        exact absurd hunknown (placeholder_ne (ofFileName?_mem hfile))
    simpa using hnone

theorem isDeclared_of_replaceLine (h : plan v content = some f) {d : Declaration}
    (hd : d ∈ declarations (lines content)) (hplacement : f.placement = .replaceLine d.line)
    (hreplacement : f.replacement =
      declarationOf (choose (declarations (lines content)) v.file).type)
    (hfirst : active (lines content) = [] ∨ (active (lines content)).head? = some d) :
    IsDeclared (Edit.apply content [f]).content d.line
      (choose (declarations (lines content)) v.file).type := by
  set type := (choose (declarations (lines content)) v.file).type with htype
  have hmem : type ∈ placeholder :: types := type_choose_mem _ _
  have hlt := line_lt_of_mem_declarations hd
  obtain ⟨before, after, hold, hnew⟩ :=
    declarations_set hd (isCommentFence_declarationOf hmem)
  rw [declarationAt?_declarationOf hmem, Option.toList_some] at hnew
  have hdeclared : ⟨d.line, .active, types.find? (· == type)⟩ ∈
      declarations ((lines content).set d.line (declarationOf type)) := by
    simp [hnew]
  have hlines := lines_apply_of_replaceLine hplacement hlt hreplacement hmem
  refine ⟨?_, ?_, fun hunknown d' hd' => ?_⟩
  · rw [hlines, List.getElem?_set_self hlt]
  · rw [hlines]
    rcases hfirst with hnone | hhead
    · have hinactive : ∀ d' ∈ before ++ d :: after, (d'.source == .active) = false := by
        rw [← hold]
        simpa [active, List.filter_eq_nil_iff] using hnone
      have hbefore : before.filter (·.source == .active) = [] :=
        List.filter_eq_nil_iff.mpr fun d' hd' => by simp [hinactive d' (by simp [hd'])]
      rw [active, hnew, List.filter_append, List.filter_append, hbefore]
      rfl
    · have hmoved := active_set (List.mem_of_head? hhead) hmem
      have hline : (active ((lines content).set d.line (declarationOf type))).head?.map (·.line) =
          some d.line := by
        rw [← List.head?_map, hmoved, List.head?_map, hhead]
        rfl
      obtain ⟨d', hd', hsame⟩ := Option.map_eq_some_iff.mp hline
      rw [hd', eq_of_line_eq (List.mem_filter.mp (List.mem_of_head? hd')).1 hdeclared hsame]
  · rw [hlines, hnew] at hd'
    have hnone : ∀ d' ∈ declarations (lines content), d'.type = none := fun d' hd' =>
      type_eq_none_of_placeholder h (htype ▸ hunknown) hd'
    simp only [List.append_assoc, List.mem_append, List.mem_singleton] at hd'
    rcases hd' with hd' | rfl | hd'
    · exact hnone d' (by simp [hold, hd'])
    · rw [hunknown]
      exact (by decide : types.find? (· == placeholder) = none)
    · exact hnone d' (by simp [hold, hd'])

/-- Whatever a text declares, after a run it declares what was chosen, as long as no comment hides
it. -/
theorem isDeclared_of_plan (hplain : ∀ line ∈ lines content, isCommentFence line = false)
    (h : plan v content = some f) : ∃ n, IsDeclared (Edit.apply content [f]).content n
      (choose (declarations (lines content)) v.file).type := by
  by_cases hne : declarations (lines content) = []
  · obtain ⟨f', hf', hplacement, -⟩ := plan_of_nil v hne
    obtain rfl : f = f' := Option.some.inj (h.symm.trans hf')
    have hputs := putsIn_of_plan h hplacement
    have hopen : commentOpen ((lines content).take (insertionLine (lines content))) = false := by
      have hnone : ∀ line ∈ (lines content).take (insertionLine (lines content)),
          isCommentFence line = false := fun line hline => hplain line (List.mem_of_mem_take hline)
      rw [← List.nil_append ((lines content).take _), commentOpen_append_of_forall hnone,
        commentOpen_nil]
    have hdeclared := hputs.isDeclared hopen
    rw [violation_of_plan h, ← type_choose_nil, ← hne] at hdeclared
    exact ⟨insertionLine (lines content), hdeclared⟩
  · obtain ⟨d, hd, hplacement, hreplacement, hfirst⟩ := target_of_plan h hne
    exact ⟨d.line, isDeclared_of_replaceLine h hd hplacement hreplacement hfirst⟩

end First

namespace IsDeclared

variable {w : Violation} {content : Text} {n : ℕ} {type : Text} (h : IsDeclared content n type)

include h

theorem plan_eq_none_iff (htype : type ∈ placeholder :: types) :
    plan w content = none ↔ type ≠ placeholder := by
  have hmem := List.mem_of_head? h.first
  rw [ContentType.plan_eq_none_iff]
  constructor
  · rintro ⟨d, hd, hsome⟩ hunknown
    rw [h.unknown hunknown d (List.mem_filter.mp hd).1] at hsome
    cases hsome
  · intro hne
    have hknown : ∀ type ∈ types, (types.find? (· == type)).isSome = true := by decide
    exact ⟨_, hmem, hknown type ((List.mem_cons.mp htype).resolve_left hne)⟩

/-- The placeholder is put in the place of itself. -/
theorem replaced (hunknown : type = placeholder) (hfile : ofFileName? w.file = none) {g : Fix}
    (hg : plan w content = some g) : g.placement = .replaceLine n ∧
      lines (Edit.apply content [g]).content = lines content := by
  have hchosen : (choose (declarations (lines content)) w.file).type = placeholder :=
    type_choose_eq_placeholder_iff.mpr ⟨fun d hd _ => h.unknown hunknown d hd, hfile⟩
  refine ⟨(plan_of_active hg h.first).1, ?_⟩
  obtain ⟨hlt, hline⟩ := List.getElem?_eq_some_iff.mp h.line
  rw [lines_apply_of_active hg h.first, hchosen, ← hunknown, ← hline, List.set_getElem_self]

end IsDeclared

/-- A second run for the same file plans nothing exactly if the first one knew the type. What it
plans otherwise is the line of the placeholder in the place of the placeholder, which changes no
line. -/
theorem declaring_settles {v w : Violation} {content : Text} {f : Fix}
    (hplain : ∀ line ∈ lines content, trim line ≠ commentFence) (h : plan v content = some f)
    (hw : w.file = v.file) :
    let type := (choose (declarations (lines content)) v.file).type
    let after := (Edit.apply content [f]).content
    (plan w after = none ↔ type ≠ placeholder) ∧
    ∀ g, plan w after = some g → type = placeholder ∧ ∃ n, g.placement = .replaceLine n ∧
      (lines after)[n]? = some (declarationOf placeholder) ∧
      lines (Edit.apply after [g]).content = lines after := by
  intro type after
  have hfences : ∀ line ∈ lines content, isCommentFence line = false := fun line hline => by
    simpa [isCommentFence] using hplain line hline
  obtain ⟨n, hdeclared⟩ := isDeclared_of_plan hfences h
  have hnone : plan w after = none ↔ type ≠ placeholder :=
    hdeclared.plan_eq_none_iff (type_choose_mem _ _)
  refine ⟨hnone, fun g hg => ?_⟩
  have hunknown : type = placeholder := by
    by_contra hne
    rw [hnone.mpr hne] at hg
    cases hg
  have hfile : ofFileName? w.file = none := by
    rw [hw]
    exact (type_choose_eq_placeholder_iff.mp hunknown).2
  obtain ⟨hplacement, hlines⟩ := hdeclared.replaced hunknown hfile hg
  exact ⟨hunknown, n, hplacement, hunknown ▸ hdeclared.line, hlines⟩

/-- The declaration that was commented out is the active one after a run, and stays so. -/
theorem declaring_settles_on_commented :
    let content : Text := "\n// :_mod-docs-content-type: concept\n= Title"
    ∃ f, plan procedureReport content = some f ∧
      plan procedureReport (Edit.apply content [f]).content = none := by
  intro content
  have hplain : ∀ line ∈ lines content, trim line ≠ commentFence := by decide +kernel
  obtain ⟨f, hf⟩ := Option.isSome_iff_exists.mp
    (show (plan procedureReport content).isSome by decide +kernel)
  obtain ⟨hnone, -⟩ := declaring_settles hplain hf (w := procedureReport) rfl
  exact ⟨f, hf, hnone.mpr (by decide +kernel)⟩

end Errata.Rule.ContentType
