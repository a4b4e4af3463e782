import Errata.Edit
import Errata.Proofs.Markup.Comments
import Errata.Rule.ContentType

/-!
# Declarations of a document

The declarations of a document are those of its parts, one part after the other: all that a part has
to know of the lines above it are their number and whether they leave a comment open. Blanks at the
ends of lines make no difference.
-/
namespace Errata.Rule.ContentType

open Markup Text

def declarationAt? (n : ℕ) (line : Text) : Option Declaration :=
  (parse? line).map fun (source, value) => ⟨n, source, ofValue? value⟩

/-- The declarations of some lines outside of comments; the first one is line `n`, and `inside`
tells whether a comment is open above it. -/
def declarationsFrom (n : ℕ) (inside : Bool) : List Text → List Declaration
  | [] => []
  | line :: lines =>
    (if inside || isCommentFence line then none else declarationAt? n line).toList ++
      declarationsFrom (n + 1) (inside != isCommentFence line) lines

theorem filterMap_zipIdx_eq (n : ℕ) (inside : Bool) (lines : List Text) :
    (((lines.zip (markComments inside lines)).zipIdx n).filterMap fun ((line, hidden), i) =>
      if hidden then none else declarationAt? i line) = declarationsFrom n inside lines := by
  induction lines generalizing n inside with
  | nil => rfl
  | cons line lines ih =>
    rw [markComments_cons, List.zip_cons_cons, List.zipIdx_cons, List.filterMap_cons, ih,
      declarationsFrom]
    dsimp only
    cases (if inside || isCommentFence line then none else declarationAt? n line) <;> rfl

theorem declarations_eq (lines : List Text) :
    declarations lines = declarationsFrom 0 false lines :=
  filterMap_zipIdx_eq 0 false lines

theorem declarationsFrom_append (n : ℕ) (inside : Bool) (above below : List Text) :
    declarationsFrom n inside (above ++ below) =
      declarationsFrom n inside above ++
        declarationsFrom (n + above.length) (inside != commentOpen above) below := by
  induction above generalizing n inside with
  | nil => simp [declarationsFrom, commentOpen]
  | cons line above ih =>
    rw [List.cons_append, declarationsFrom, ih, commentOpen_cons, declarationsFrom,
      List.append_assoc, List.length_cons, Bool.bne_assoc, Nat.add_right_comm, Nat.add_assoc]

/-- A declaration is one wherever its line stands. -/
theorem declarationsFrom_eq_nil_iff (n m : ℕ) (inside : Bool) (lines : List Text) :
    declarationsFrom n inside lines = [] ↔ declarationsFrom m inside lines = [] := by
  induction lines generalizing n m inside with
  | nil => exact Iff.rfl
  | cons line lines ih =>
    simp only [declarationsFrom, List.append_eq_nil_iff, ih (n + 1) (m + 1)]
    refine and_congr_left fun _ => ?_
    split <;> simp [declarationAt?]

theorem parse?_congr {line line' : Text} (h : trim line = trim line') :
    parse? line = parse? line' := by
  simp only [parse?, h]

theorem declarationsFrom_congr (n : ℕ) (inside : Bool) {lines lines' : List Text}
    (h : lines.map trim = lines'.map trim) :
    declarationsFrom n inside lines = declarationsFrom n inside lines' := by
  induction lines generalizing n inside lines' with
  | nil =>
    cases lines' with
    | nil => rfl
    | cons line' lines' => cases h
  | cons line lines ih =>
    cases lines' with
    | nil => cases h
    | cons line' lines' =>
      obtain ⟨hline, hlines⟩ := List.cons.inj h
      rw [declarationsFrom, declarationsFrom, ih _ _ hlines, isCommentFence_congr hline,
        declarationAt?, parse?_congr hline, declarationAt?]

def declarationOf (type : Text) : Text := attributeName ++ [' '] ++ type

theorem ofFileName?_mem {file : Path} {type : Text} (h : ofFileName? file = some type) :
    type ∈ types := by
  have hprefixes : ∀ entry ∈ filePrefixes, entry.2 ∈ types := by decide
  simp only [ofFileName?, Option.bind_eq_bind, Option.bind_eq_some_iff, Option.some.injEq] at h
  obtain ⟨name, -, entry, hfind, rfl⟩ := h
  exact hprefixes entry (List.mem_of_find?_eq_some hfind)

section

variable {type : Text} (h : type ∈ placeholder :: types)

include h

theorem isCommentFence_declarationOf : isCommentFence (declarationOf type) = false := by
  have hall : ∀ type ∈ placeholder :: types, isCommentFence (declarationOf type) = false := by
    decide +kernel
  exact hall type h

theorem declarationAt?_declarationOf (n : ℕ) :
    declarationAt? n (declarationOf type) = some ⟨n, .active, types.find? (· == type)⟩ := by
  have hall : ∀ type ∈ placeholder :: types,
      declarationAt? 0 (declarationOf type) = some ⟨0, .active, types.find? (· == type)⟩ := by
    decide +kernel
  obtain ⟨⟨source, value⟩, hparse, hdeclaration⟩ := Option.map_eq_some_iff.mp (hall type h)
  obtain ⟨-, hsource, htype⟩ := Declaration.mk.inj hdeclaration
  simp only [declarationAt?, hparse, Option.map_some, hsource, htype]

theorem newLines_declarationOf {f : Fix} (hf : f.replacement = declarationOf type) :
    Edit.newLines f = [declarationOf type] := by
  have hall : ∀ type ∈ placeholder :: types,
      ((declarationOf type).splitOn '\n').map (dropEndWhile (· == '\r')) =
        [declarationOf type] := by
    decide +kernel
  rw [Edit.newLines, hf, hall type h]

theorem newLines_declarationOf_spaced {f : Fix} (hf : f.replacement = declarationOf type ++ ['\n']) :
    Edit.newLines f = [declarationOf type, []] := by
  have hall : ∀ type ∈ placeholder :: types,
      ((declarationOf type ++ ['\n']).splitOn '\n').map (dropEndWhile (· == '\r')) =
        [declarationOf type, []] := by
    decide +kernel
  rw [Edit.newLines, hf, hall type h]

end

/-- The line that declares the type that the name of a file stands for, or the placeholder. -/
def declarationFor (file : Path) : Text :=
  attributeName ++ [' '] ++ (ofFileName? file).getD placeholder

theorem declarationFor_eq (file : Path) :
    declarationFor file = declarationOf ((ofFileName? file).getD placeholder) := rfl

theorem typeFor_mem (file : Path) : (ofFileName? file).getD placeholder ∈ placeholder :: types := by
  cases h : ofFileName? file with
  | none => exact List.mem_cons_self
  | some type => exact List.mem_cons_of_mem _ (ofFileName?_mem h)

theorem find?_typeFor (file : Path) :
    types.find? (· == (ofFileName? file).getD placeholder) = ofFileName? file := by
  have hall : ∀ type ∈ types, types.find? (· == type) = some type := by decide
  cases h : ofFileName? file with
  | none => decide
  | some type => exact hall type (ofFileName?_mem h)

theorem declarationAt?_declarationFor (n : ℕ) (file : Path) :
    declarationAt? n (declarationFor file) = some ⟨n, .active, ofFileName? file⟩ := by
  rw [declarationFor_eq, declarationAt?_declarationOf (typeFor_mem file), find?_typeFor]

theorem isCommentFence_declarationFor (file : Path) :
    isCommentFence (declarationFor file) = false :=
  isCommentFence_declarationOf (typeFor_mem file)

theorem newLines_declarationFor {f : Fix} {file : Path} {spaced : Bool}
    (h : f.replacement =
      if spaced then declarationFor file ++ ['\n'] else declarationFor file) :
    Edit.newLines f = declarationFor file :: if spaced then [[]] else [] := by
  cases spaced with
  | true => exact newLines_declarationOf_spaced (typeFor_mem file) h
  | false => exact newLines_declarationOf (typeFor_mem file) h

theorem violation_of_plan {v : Violation} {content : Text} {f : Fix}
    (h : plan v content = some f) : f.violation = v := by
  simp only [plan] at h
  split at h
  · cases h
  · obtain rfl := Option.some.inj h
    rfl

/-- What holds of every choice that a declaration, the name of a file or neither gives. -/
theorem choose_induction {P : Choice → Prop} {ds : List Declaration} {file : Path}
    (hdeclared : ∀ d ∈ ds, ∀ type, d.type = some type →
      ∀ reason, P ⟨type, 0.9, false, some d.line, reason⟩)
    (hnamed : ∀ type, ofFileName? file = some type →
      ∀ reason, P ⟨type, 0.8, false, none, reason⟩)
    (hnone : ∀ reason, P ⟨placeholder, 0.3, true, none, reason⟩) : P (choose ds file) := by
  have hfrom : ∀ source reason c, choiceFrom? ds source reason = some c → P c := by
    intro source reason c h
    obtain ⟨d, hd, hc⟩ := List.exists_of_findSome?_eq_some h
    split at hc
    · obtain ⟨type, htype, rfl⟩ := Option.map_eq_some_iff.mp hc
      exact hdeclared d hd type htype reason
    · cases hc
  unfold choose
  cases hchoice : ((choiceFrom? ds .commented "uncommented existing declaration").or
      (choiceFrom? ds .formerName "renamed deprecated attribute")).or
      ((ofFileName? file).map fun type => ⟨type, 0.8, false, none, "inferred from file name"⟩) with
  | none => exact hnone _
  | some c =>
    rcases Option.or_eq_some_iff.mp hchoice with hfound | ⟨-, hfile⟩
    · rcases Option.or_eq_some_iff.mp hfound with hcommented | ⟨-, hformer⟩
      · exact hfrom _ _ c hcommented
      · exact hfrom _ _ c hformer
    · obtain ⟨type, htype, rfl⟩ := Option.map_eq_some_iff.mp hfile
      exact hnamed type htype _

theorem line_of_foundAt {ds : List Declaration} {file : Path} {line : ℕ}
    (h : (choose ds file).foundAt = some line) : ∃ d ∈ ds, d.line = line := by
  revert h
  apply choose_induction (P := fun c => c.foundAt = some line → ∃ d ∈ ds, d.line = line)
  · intro d hd _ _ _ hline
    exact ⟨d, hd, Option.some.inj hline⟩
  · intro _ _ _ hline
    cases hline
  · intro _ hline
    cases hline

theorem exists_declaration_of_target {ds : List Declaration} {file : Path} {line : ℕ}
    (h : (((ds.find? (·.source == .active)).map (·.line)).or (choose ds file).foundAt).or
      (ds.head?.map (·.line)) = some line) : ∃ d ∈ ds, d.line = line := by
  rcases Option.or_eq_some_iff.mp h with htaken | ⟨-, hfirst⟩
  · rcases Option.or_eq_some_iff.mp htaken with hactive | ⟨-, hfound⟩
    · obtain ⟨d, hd, rfl⟩ := Option.map_eq_some_iff.mp hactive
      exact ⟨d, List.mem_of_find?_eq_some hd, rfl⟩
    · exact line_of_foundAt hfound
  · obtain ⟨d, hd, rfl⟩ := Option.map_eq_some_iff.mp hfirst
    exact ⟨d, List.mem_of_head? hd, rfl⟩

theorem line_lt_of_mem_declarations {ls : List Text} {d : Declaration} (h : d ∈ declarations ls) :
    d.line < ls.length := by
  obtain ⟨⟨⟨line, hidden⟩, n⟩, hn, hd⟩ := List.mem_filterMap.mp h
  have hlt : n < (ls.zip (Markup.commentLines ls)).length := List.snd_lt_of_mem_zipIdx hn
  simp only at hd
  split at hd
  · cases hd
  · obtain ⟨⟨source, value⟩, -, rfl⟩ := Option.map_eq_some_iff.mp hd
    rw [List.length_zip] at hlt
    exact Nat.lt_of_lt_of_le hlt (Nat.min_le_left _ _)

theorem type_of_mem_declarations {ls : List Text} {d : Declaration} {type : Text}
    (h : d ∈ declarations ls) (htype : d.type = some type) : type ∈ types := by
  obtain ⟨⟨⟨line, hidden⟩, n⟩, -, hd⟩ := List.mem_filterMap.mp h
  simp only at hd
  split at hd
  · cases hd
  · obtain ⟨⟨source, value⟩, -, rfl⟩ := Option.map_eq_some_iff.mp hd
    have hvalue : ofValue? value = some type := htype
    rw [ofValue?] at hvalue
    exact List.mem_of_find?_eq_some hvalue

theorem type_choose_mem (ls : List Text) (file : Path) :
    (choose (declarations ls) file).type ∈ placeholder :: types := by
  apply choose_induction (P := fun c => c.type ∈ placeholder :: types)
  · intro d hd type htype _
    exact List.mem_cons_of_mem _ (type_of_mem_declarations hd htype)
  · intro type htype _
    exact List.mem_cons_of_mem _ (ofFileName?_mem htype)
  · intro _
    exact List.mem_cons_self

theorem type_choose_nil (file : Path) :
    (choose [] file).type = (ofFileName? file).getD placeholder := by
  unfold choose
  cases ofFileName? file <;> rfl

theorem foundAt_choose_nil (file : Path) : (choose [] file).foundAt = none := by
  unfold choose
  cases ofFileName? file <;> rfl

theorem plan_of_nil (v : Violation) {content : Text} (h : declarations (lines content) = []) :
    ∃ f, plan v content = some f ∧ f.placement = .insertLine (insertionLine (lines content)) ∧
      f.replacement =
        if (lines content)[insertionLine (lines content)]?.any (!Text.blank ·)
        then declarationFor v.file ++ ['\n'] else declarationFor v.file := by
  have hplan : (plan v content).isSome := by
    simp only [plan, h, List.any_nil, Bool.false_eq_true, if_false, Option.isSome_some]
  obtain ⟨f, hf⟩ := Option.isSome_iff_exists.mp hplan
  refine ⟨f, hf, ?_⟩
  simp only [plan, h, List.any_nil, Bool.false_eq_true, if_false, List.find?_nil,
    Option.map_none, foundAt_choose_nil, List.head?_nil, Option.or_none, type_choose_nil] at hf
  obtain rfl := Option.some.inj hf
  exact ⟨rfl, rfl⟩

/-- A declaration is put in only where there is none. -/
theorem declarations_eq_nil_of_plan {v : Violation} {content : Text} {f : Fix} {n : ℕ}
    (h : plan v content = some f) (hn : f.placement = .insertLine n) :
    declarations (lines content) = [] := by
  by_contra hne
  obtain ⟨d, ds, hds⟩ := List.exists_cons_of_ne_nil hne
  simp only [plan, hds] at h
  split at h
  · cases h
  · obtain rfl := Option.some.inj h
    simp only [Fix.setDescription, Fix.setReview, Fix.setConfidence, Fix.new, List.head?_cons,
      Option.map_some] at hn
    cases ho : ((List.find? (·.source == .active) (d :: ds)).map (·.line)).or
      (choose (d :: ds) v.file).foundAt <;> simp [ho] at hn

end Errata.Rule.ContentType
