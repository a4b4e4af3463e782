import Errata.Proofs.Edit.Endings
import Errata.Proofs.Rule.DeclarationPlace

/-!
# What is left when a declaration is rewritten

Where active declarations stand in a document, none of them valid, the first one is rewritten in its
place. Nothing else in the document changes, so there are as many active declarations afterwards as
there were before, and a single one is left exactly if there was a single one.
-/
namespace Errata.Rule.ContentType

open Markup Text

def active (ls : List Text) : List Declaration := (declarations ls).filter (·.source == .active)

/-- A declaration stands in a line that neither opens nor closes a comment, outside of comments. -/
theorem exists_split_of_mem {n : ℕ} {inside : Bool} {ls : List Text} {d : Declaration}
    (hd : d ∈ declarationsFrom n inside ls) : ∃ above line below,
      ls = above ++ line :: below ∧ d.line = n + above.length ∧
        (inside != commentOpen above) = false ∧ isCommentFence line = false ∧
          declarationAt? d.line line = some d := by
  induction ls generalizing n inside with
  | nil => cases hd
  | cons first ls ih =>
    rw [declarationsFrom, List.mem_append, Option.mem_toList] at hd
    rcases hd with hhere | hbelow
    · rw [Option.ite_none_left_eq_some] at hhere
      obtain ⟨hplain, hdeclares⟩ := hhere
      have hline : d.line = n := by
        obtain ⟨⟨source, value⟩, -, rfl⟩ := Option.map_eq_some_iff.mp hdeclares
        rfl
      obtain ⟨hinside, hfence⟩ : inside = false ∧ isCommentFence first = false := by
        simpa using hplain
      exact ⟨[], first, ls, rfl, hline, by rw [hinside, commentOpen_nil]; rfl, hfence,
        hline ▸ hdeclares⟩
    · obtain ⟨above, line, below, rfl, hline, hopen, hfence, hdeclares⟩ := ih hbelow
      refine ⟨first :: above, line, below, rfl, ?_, ?_, hfence, hdeclares⟩
      · rw [hline, List.length_cons]
        omega
      · rw [commentOpen_cons, ← Bool.bne_assoc, hopen]

/-- A line that neither opens nor closes a comment changes no other declaration when it is put in
the place of one. -/
theorem declarations_set {ls : List Text} {d : Declaration} (hd : d ∈ declarations ls)
    {line : Text} (hline : isCommentFence line = false) :
    ∃ before after, declarations ls = before ++ d :: after ∧
      declarations (ls.set d.line line) =
        before ++ (declarationAt? d.line line).toList ++ after := by
  rw [declarations_eq] at hd
  obtain ⟨above, old, below, rfl, hlength, hopen, hfence, hdeclares⟩ := exists_split_of_mem hd
  rw [Nat.zero_add] at hlength
  have hset : (above ++ old :: below).set d.line line = above ++ line :: below := by
    rw [hlength, List.set_append_right _ _ (Nat.le_refl _), Nat.sub_self, List.set_cons_zero]
  have hparts : ∀ new, isCommentFence new = false →
      declarations (above ++ new :: below) = declarationsFrom 0 false above ++
        (declarationAt? d.line new).toList ++ declarationsFrom (d.line + 1) false below := by
    intro new hnew
    rw [declarations_eq, declarationsFrom_append, hopen, declarationsFrom, hnew, Nat.zero_add,
      ← hlength, List.append_assoc]
    rfl
  refine ⟨declarationsFrom 0 false above, declarationsFrom (d.line + 1) false below, ?_, ?_⟩
  · rw [hparts old hfence, hdeclares, Option.toList_some, List.append_assoc, List.singleton_append]
  · rw [hset, hparts line hline]

theorem active_set {ls : List Text} {d : Declaration} (hd : d ∈ active ls) {type : Text}
    (htype : type ∈ placeholder :: types) :
    (active (ls.set d.line (declarationOf type))).map (·.line) = (active ls).map (·.line) := by
  obtain ⟨hd, hactive⟩ := List.mem_filter.mp hd
  obtain ⟨before, after, hbefore, hafter⟩ :=
    declarations_set hd (isCommentFence_declarationOf htype)
  have hnew := declarationAt?_declarationOf htype d.line
  simp [active, hbefore, hafter, hnew, List.filter_append, hactive]

theorem plan_of_active {v : Violation} {content : Text} {f : Fix} {d : Declaration}
    (h : plan v content = some f) (hd : (active (lines content)).head? = some d) :
    f.placement = .replaceLine d.line ∧
      f.replacement = declarationOf (choose (declarations (lines content)) v.file).type := by
  rw [active, List.head?_filter] at hd
  simp only [plan, hd] at h
  split at h
  · cases h
  · obtain rfl := Option.some.inj h
    exact ⟨rfl, rfl⟩

theorem isProper_declarationOf {type : Text} (h : type ∈ placeholder :: types) (e : Ending) :
    IsProper ⟨declarationOf type, e⟩ := by
  have hall : ∀ type ∈ placeholder :: types, '\n' ∉ declarationOf type ∧
      (declarationOf type).getLast? ≠ some '\r' ∧ declarationOf type ≠ [] := by
    decide +kernel
  obtain ⟨hnewline, hreturn, hne⟩ := hall type h
  exact ⟨hnewline, fun _ => hreturn, fun _ => hne⟩

theorem lines_apply_of_replaceLine {content : Text} {f : Fix} {n : ℕ} {type : Text}
    (hplacement : f.placement = .replaceLine n) (hn : n < (lines content).length)
    (hreplacement : f.replacement = declarationOf type) (htype : type ∈ placeholder :: types) :
    lines (Edit.apply content [f]).content = (lines content).set n (declarationOf type) := by
  apply Edit.lines_apply_of_set
  · rw [Edit.pass_of_replaceLine hplacement hn (newLines_declarationOf htype hreplacement)]
  · intro l _
    exact isProper_declarationOf htype l.ending

theorem lines_apply_of_active {v : Violation} {content : Text} {f : Fix} {d : Declaration}
    (h : plan v content = some f) (hd : (active (lines content)).head? = some d) :
    lines (Edit.apply content [f]).content = (lines content).set d.line
      (declarationOf (choose (declarations (lines content)) v.file).type) := by
  obtain ⟨hplacement, hreplacement⟩ := plan_of_active h hd
  have hlt := line_lt_of_mem_declarations (List.mem_filter.mp (List.mem_of_head? hd)).1
  exact lines_apply_of_replaceLine hplacement hlt hreplacement (type_choose_mem _ _)

/-- A rewritten declaration stands in the line of the first active one, and declares the type that
was chosen. No other line changes and all active declarations keep their lines, so it is the only
active one afterwards exactly if there was only one before. -/
theorem rewriting_leaves_one_iff {v : Violation} {content : Text} {f : Fix}
    (h : plan v content = some f) (hactive : active (lines content) ≠ []) :
    let ls := lines content
    let after := lines (Edit.apply content [f]).content
    let text := declarationOf (choose (declarations ls) v.file).type
    (∃ d, (active ls).head? = some d ∧ after = ls.set d.line text) ∧
    (active after).map (·.line) = (active ls).map (·.line) ∧
    ((∃ d, active after = [d] ∧ after[d.line]? = some text) ↔ (active ls).length = 1) := by
  intro ls after text
  obtain ⟨d, ds, hds⟩ := List.exists_cons_of_ne_nil hactive
  have hd : (active ls).head? = some d := by
    change (active (lines content)).head? = some d
    rw [hds, List.head?_cons]
  have hafter : after = ls.set d.line text := lines_apply_of_active h hd
  have hmem := List.mem_of_head? hd
  have hlines : (active after).map (·.line) = (active ls).map (·.line) := by
    rw [hafter]
    exact active_set hmem (type_choose_mem ls v.file)
  refine ⟨⟨d, hd, hafter⟩, hlines, ?_⟩
  have hlength : (active after).length = (active ls).length := by
    simpa using congrArg List.length hlines
  constructor
  · rintro ⟨d', hd', -⟩
    rw [← hlength, hd', List.length_singleton]
  · intro hone
    obtain ⟨d', hd'⟩ := List.length_eq_one_iff.mp (hlength.trans hone)
    obtain ⟨d₀, hd₀⟩ := List.length_eq_one_iff.mp hone
    have hline : d'.line = d.line := by
      rw [hd₀, List.head?_singleton, Option.some_inj] at hd
      simpa [hd', hd₀, hd] using hlines
    refine ⟨d', hd', ?_⟩
    rw [hafter, hline, List.getElem?_set_self (line_lt_of_mem_declarations (List.mem_filter.mp hmem).1)]

/-- A commented declaration tells the type, and the active one is rewritten. -/
theorem rewriting_leaves_one_beside_commented :
    let content : Text :=
      "// :_mod-docs-content-type: concept\n:_mod-docs-content-type: TBD\n= Title"
    ∃ f, plan procedureReport content = some f ∧ active (lines content) ≠ [] ∧
      ∃ d, active (lines (Edit.apply content [f]).content) = [d] ∧
        (lines (Edit.apply content [f]).content)[d.line]? = some (declarationOf "CONCEPT") := by
  intro content
  have hplan : (plan procedureReport content).isSome := by decide +kernel
  obtain ⟨f, hf⟩ := Option.isSome_iff_exists.mp hplan
  have hactive : active (lines content) ≠ [] := by decide +kernel
  have htype : (choose (declarations (lines content)) procedureReport.file).type = "CONCEPT" := by
    decide +kernel
  obtain ⟨-, -, hone⟩ := rewriting_leaves_one_iff hf hactive
  rw [htype] at hone
  exact ⟨f, hf, hactive, hone.mpr (by decide +kernel)⟩

/-- A second active declaration that is not valid is still there afterwards. -/
theorem second_declaration_left : ¬∀ (v : Violation) (content : Text) (f : Fix),
    active (lines content) ≠ [] → plan v content = some f →
      ∃ d, active (lines (Edit.apply content [f]).content) = [d] := by
  intro h
  let content : Text := ":_mod-docs-content-type: TBD\n:_mod-docs-content-type: TBD\n= Title"
  obtain ⟨f, hf, hlength⟩ := Option.map_eq_some_iff.mp
    (show ((plan procedureReport content).map fun f =>
        (active (lines (Edit.apply content [f]).content)).length) = some 2 by decide +kernel)
  obtain ⟨d, hd⟩ := h procedureReport content f (by decide +kernel) hf
  rw [hd] at hlength
  cases hlength

end Errata.Rule.ContentType
