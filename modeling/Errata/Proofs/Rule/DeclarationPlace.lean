import Errata.Proofs.Edit.Insertion
import Errata.Proofs.Rule.Declarations
import Mathlib.Data.List.TakeWhile

/-!
# Where a declaration is put in

A new declaration is put in behind the comments that open the document, or two lines above its first
heading where that is further down. Behind the opening comments no comment is open. The place above
the heading is counted off in lines, so it can lie within a comment further down, and a declaration
in a comment is none.
-/
namespace Errata.Rule.ContentType

open Markup Text

theorem commentOpen_append_of_forall {above below : List Text}
    (h : ∀ line ∈ below, isCommentFence line = false) :
    commentOpen (above ++ below) = commentOpen above := by
  have hcount : below.countP isCommentFence = 0 := by
    simpa [List.countP_eq_zero] using h
  have hbelow : commentOpen below = false := by
    rw [commentOpen, hcount, Nat.bodd_zero]
  rw [commentOpen_append, hbelow, Bool.bne_false]

theorem isCommentFence_of_blank {line : Text} (h : Text.blank line) :
    isCommentFence line = false := by
  have htrim : trim line = [] := by
    have hstart : trimStart line = [] := by
      simpa [trimStart, List.dropWhile_eq_nil_iff, Text.blank] using h
    rw [trim, hstart]
    rfl
  rw [isCommentFence, htrim]
  decide

theorem isCommentFence_of_isLineComment {line : Text} (h : isLineComment line) :
    isCommentFence line = false := by
  simp only [isLineComment, Bool.and_eq_true, Bool.not_eq_true'] at h
  simp only [isCommentFence, beq_eq_false_iff_ne]
  intro htrim
  have hself : List.isPrefixOf commentFence commentFence = true := by decide
  rw [htrim, hself] at h
  cases h.2

theorem take_pastBlank (lines : List Text) (n : ℕ) :
    lines.take (pastBlank lines n) = lines.take n ++ (lines.drop n).takeWhile Text.blank := by
  rw [pastBlank, List.take_add, ← List.prefix_iff_eq_take.mp (List.takeWhile_prefix _)]

theorem commentOpen_take_pastBlank (lines : List Text) (n : ℕ) :
    commentOpen (lines.take (pastBlank lines n)) = commentOpen (lines.take n) := by
  rw [take_pastBlank]
  exact commentOpen_append_of_forall fun line hline =>
    isCommentFence_of_blank (List.mem_takeWhile_imp hline)

theorem pastBlank_le {lines : List Text} {n : ℕ} (h : n ≤ lines.length) :
    pastBlank lines n ≤ lines.length := by
  have hlength := (List.takeWhile_prefix Text.blank (l := lines.drop n)).length_le
  rw [List.length_drop] at hlength
  unfold pastBlank
  omega

theorem commentOpen_take_of_findIdx? {lines : List Text} {n : ℕ}
    (h : lines.findIdx? isCommentFence = some n) : commentOpen (lines.take (n + 1)) = true := by
  induction lines generalizing n with
  | nil => cases h
  | cons line lines ih =>
    rw [List.findIdx?_cons] at h
    split at h
    · next hfence =>
      obtain rfl := Option.some.inj h
      simp [commentOpen, hfence]
    · next hfence =>
      obtain ⟨m, hm, rfl⟩ := Option.map_eq_some_iff.mp h
      rw [List.take_succ_cons, commentOpen_cons, ih hm]
      simpa using hfence

/-- A comment that opens the document is closed at the place behind it. -/
theorem afterCommentBlock?_spec {lines : List Text} {n : ℕ}
    (h : afterCommentBlock? lines = some n) :
    n ≤ lines.length ∧ commentOpen (lines.take n) = false := by
  simp only [afterCommentBlock?] at h
  split at h
  · next first rest hdrop =>
    split at h
    · next hfence =>
      obtain ⟨m, hm, rfl⟩ := Option.map_eq_some_iff.mp h
      have hlength : m < rest.length := (List.findIdx?_eq_some_iff_getElem.mp hm).1
      have hrest : lines.length - pastBlank lines 0 = rest.length + 1 := by
        rw [← List.length_drop, hdrop, List.length_cons]
      have htake : lines.take (pastBlank lines 0 + 1 + m + 1) =
          lines.take (pastBlank lines 0) ++ first :: rest.take (m + 1) := by
        rw [show pastBlank lines 0 + 1 + m + 1 = pastBlank lines 0 + (m + 2) by omega,
          List.take_add, hdrop, List.take_succ_cons]
      refine ⟨pastBlank_le (by omega), ?_⟩
      rw [commentOpen_take_pastBlank, htake, commentOpen_append, commentOpen_take_pastBlank,
        commentOpen_cons, commentOpen_take_of_findIdx? hm, show isCommentFence first = true from
        hfence, List.take_zero, commentOpen_nil]
      rfl
    · cases h
  · cases h

theorem afterLineComments_spec (lines : List Text) :
    afterLineComments lines ≤ lines.length ∧
      commentOpen (lines.take (afterLineComments lines)) = false := by
  simp only [afterLineComments]
  split
  · exact ⟨Nat.zero_le _, commentOpen_nil⟩
  · have hstart := List.takeWhile_prefix (l := lines)
      fun line => Text.blank line || isLineComment line
    refine ⟨hstart.length_le, ?_⟩
    rw [← List.prefix_iff_eq_take.mp hstart, ← List.nil_append (List.takeWhile _ lines),
      commentOpen_append_of_forall, commentOpen_nil]
    intro line hline
    have hcomment := List.mem_takeWhile_imp hline
    rw [Bool.or_eq_true] at hcomment
    rcases hcomment with h | h
    · exact isCommentFence_of_blank h
    · exact isCommentFence_of_isLineComment h

/-- The place of a new declaration lies in a comment: no comment block opens the document, and two
lines above its first heading, further down than the comment lines at its start, a comment is
open. -/
def IsMisplaced (lines : List Text) : Prop :=
  afterCommentBlock? lines = none ∧ ∃ heading, headingLine? lines = some heading ∧
    afterLineComments lines < heading - 2 ∧ commentOpen (lines.take (heading - 2)) = true

theorem insertionLine_le (lines : List Text) : insertionLine lines ≤ lines.length := by
  unfold insertionLine
  split
  · next n hblock => exact (afterCommentBlock?_spec hblock).1
  · have hfloor := (afterLineComments_spec lines).1
    dsimp only
    split
    · next heading hheading =>
      have hlt := (List.findIdx?_eq_some_iff_getElem.mp hheading).1
      omega
    · exact hfloor

theorem commentOpen_take_insertionLine (lines : List Text) :
    commentOpen (lines.take (insertionLine lines)) = true ↔ IsMisplaced lines := by
  have hfloor := (afterLineComments_spec lines).2
  unfold insertionLine IsMisplaced
  cases hblock : afterCommentBlock? lines with
  | some n => simp [(afterCommentBlock?_spec hblock).2]
  | none =>
    cases hheading : headingLine? lines with
    | none => simp [hfloor]
    | some heading =>
      by_cases hlt : afterLineComments lines < heading - 2
      · simp [hlt, Nat.max_eq_left (Nat.le_of_lt hlt)]
      · simp [hlt, Nat.max_eq_right (Nat.le_of_not_lt hlt), hfloor]

/-- The fix puts the declaration for its file in before line `n` of a text that has none. -/
structure PutsIn (f : Fix) (content : Text) (n : ℕ) : Prop where
  undeclared : declarations (lines content) = []
  placement : f.placement = .insertLine n
  place : n = insertionLine (lines content)
  newLines : Edit.newLines f = declarationFor f.violation.file ::
    if (lines content)[n]?.any (!Text.blank ·) then [[]] else []

theorem putsIn_of_plan {v : Violation} {content : Text} {f : Fix} {n : ℕ}
    (h : plan v content = some f) (hn : f.placement = .insertLine n) : PutsIn f content n := by
  have hnil := declarations_eq_nil_of_plan h hn
  obtain ⟨f', hf', hplace, hreplacement⟩ := plan_of_nil v hnil
  obtain rfl : f = f' := Option.some.inj (h.symm.trans hf')
  obtain rfl : n = insertionLine (lines content) :=
    Placement.insertLine.inj (hn.symm.trans hplace)
  refine ⟨hnil, hn, rfl, ?_⟩
  rw [violation_of_plan h]
  exact newLines_declarationFor hreplacement

namespace PutsIn

variable {f : Fix} {content : Text} {n : ℕ} (h : PutsIn f content n)

include h

theorem row_eq : f.row = n := by
  rw [Fix.row, h.placement]

theorem le_length : n ≤ (lines content).length := by
  rw [h.place]
  exact insertionLine_le _

theorem inserted_eq : Edit.inserted (lines content) f =
    (lines content).take n ++ Edit.newLines f ++ (lines content).drop n := by
  rw [Edit.inserted, h.row_eq]

theorem getElem?_inserted (i : ℕ) : (Edit.inserted (lines content) f)[n + i]? =
    (Edit.newLines f ++ (lines content).drop n)[i]? := by
  have habove : ((lines content).take n).length = n := List.length_take_of_le h.le_length
  rw [h.inserted_eq, List.append_assoc, List.getElem?_append_right (by omega), habove,
    Nat.add_sub_cancel_left]

theorem isCommentFence_newLines : ∀ line ∈ Edit.newLines f, isCommentFence line = false := by
  rw [h.newLines]
  intro line hline
  rcases List.mem_cons.mp hline with rfl | hline
  · exact isCommentFence_declarationFor _
  · split at hline
    · obtain rfl := List.mem_singleton.mp hline
      decide
    · cases hline

theorem declarationsFrom_newLines (i : ℕ) (inside : Bool) :
    declarationsFrom i inside (Edit.newLines f) =
      if inside then [] else [⟨i, .active, ofFileName? f.violation.file⟩] := by
  have hspacer : ∀ spaced : Bool,
      declarationsFrom (i + 1) inside (if spaced then [[]] else []) = [] := by
    have hparse : parse? [] = none := by decide
    intro spaced
    cases spaced <;> cases inside <;> simp [declarationsFrom, declarationAt?, hparse]
  rw [h.newLines, declarationsFrom, isCommentFence_declarationFor, Bool.bne_false, hspacer,
    declarationAt?_declarationFor]
  cases inside <;> rfl

theorem rereads_lines : List.Forall₂ Rereads (Edit.inserted (lines content) f)
    (lines (Edit.apply content [f]).content) := by
  refine Edit.rereads_lines_apply_of_inserts (by simp [h.placement, Placement.inserts])
    (by rw [h.row_eq]; exact h.le_length) fun hlast => ?_
  rw [h.row_eq] at hlast
  have hne : declarationFor f.violation.file ≠ [] := by
    simp [declarationFor]
  rw [h.newLines, List.getElem?_eq_none (by omega)]
  simpa using hne

theorem trim_lines :
    (lines (Edit.apply content [f]).content).map trim =
      (Edit.inserted (lines content) f).map trim :=
  trim_eq_of_rereads h.rereads_lines

theorem getElem?_commentLines :
    (commentLines (lines (Edit.apply content [f]).content))[n]? =
      some (commentOpen ((lines content).take n)) := by
  have habove : ((lines content).take n).length = n := List.length_take_of_le h.le_length
  rw [commentLines, markComments_congr h.trim_lines, ← commentLines, Markup.getElem?_commentLines,
    h.inserted_eq, h.newLines, List.append_assoc, List.take_left' habove,
    List.getElem?_append_right habove.le, habove, Nat.sub_self]
  simp [isCommentFence_declarationFor]

/-- The declarations after the fix: the new one, or none if it lies in a comment. -/
theorem declarations_eq :
    declarations (lines (Edit.apply content [f]).content) =
      if commentOpen ((lines content).take n) then []
      else [⟨n, .active, ofFileName? f.violation.file⟩] := by
  have hlength : ((lines content).take n).length = n := List.length_take_of_le h.le_length
  obtain ⟨habove, hbelow⟩ : declarationsFrom 0 false ((lines content).take n) = [] ∧
      declarationsFrom n (commentOpen ((lines content).take n)) ((lines content).drop n) = [] := by
    have hnil := h.undeclared
    rw [ContentType.declarations_eq, ← List.take_append_drop n (lines content),
      declarationsFrom_append, hlength, Nat.zero_add, Bool.false_bne] at hnil
    exact List.append_eq_nil_iff.mp hnil
  have hnew := h.declarationsFrom_newLines n (commentOpen ((lines content).take n))
  have hsame : commentOpen ((lines content).take n ++ Edit.newLines f) =
      commentOpen ((lines content).take n) :=
    commentOpen_append_of_forall h.isCommentFence_newLines
  rw [ContentType.declarations_eq, declarationsFrom_congr 0 false h.trim_lines, h.inserted_eq,
    declarationsFrom_append, declarationsFrom_append, habove, hsame, hlength, Nat.zero_add,
    Bool.false_bne, hnew, (declarationsFrom_eq_nil_iff _ n _ _).mpr hbelow, List.nil_append,
    List.append_nil]

end PutsIn

/-- A new declaration is found again exactly if it is not misplaced, and if it is not found another
one is put in by the next run. -/
theorem insertion_takes_effect_iff {v : Violation} {content : Text} {f : Fix} {n : ℕ}
    (h : plan v content = some f) (hn : f.placement = .insertLine n) :
    let after := (Edit.apply content [f]).content
    ((commentLines (lines after))[n]? = some false ↔ ¬IsMisplaced (lines content)) ∧
    (⟨n, .active, ofFileName? v.file⟩ ∈ declarations (lines after) ↔
      ¬IsMisplaced (lines content)) ∧
    ∀ w, (∃ g m, plan w after = some g ∧ g.placement = .insertLine m) ↔
      IsMisplaced (lines content) := by
  intro after
  have hputs := putsIn_of_plan h hn
  have hopen : commentOpen ((lines content).take n) = true ↔ IsMisplaced (lines content) := by
    rw [hputs.place]
    exact commentOpen_take_insertionLine _
  have hafter : declarations (lines after) = [] ↔ IsMisplaced (lines content) := by
    rw [hputs.declarations_eq, ← hopen]
    split <;> simp_all
  refine ⟨?_, ?_, fun w => ?_⟩
  · rw [hputs.getElem?_commentLines, ← hopen]
    simp
  · rw [hputs.declarations_eq, ← hopen, violation_of_plan h]
    split <;> simp_all
  · rw [← hafter]
    constructor
    · rintro ⟨g, m, hg, hm⟩
      exact declarations_eq_nil_of_plan hg hm
    · intro hnil
      obtain ⟨g, hg, hplace, -⟩ := plan_of_nil w hnil
      exact ⟨g, _, hg, hplace⟩

def procedureReport : Violation where
  file := "proc_x.adoc"
  ruleName := "ContentType"
  line := 1
  column := 1
  message := []
  severity := .warning
  originalText := []
  suggestedText := none
  checkId := "AsciiDocDITA.ContentType"
  link := none

/-- A comment that ends right above the place does no harm. -/
theorem insertion_takes_effect_below_comment :
    let content : Text := "// note\n\nIntro\n////\nold\n////\n\n\n= Title"
    ∃ f, plan procedureReport content = some f ∧ f.placement = .insertLine 6 ∧
      ⟨6, .active, ofFileName? procedureReport.file⟩ ∈
        declarations (lines (Edit.apply content [f]).content) := by
  intro content
  obtain ⟨f, hf, hplace⟩ := Option.map_eq_some_iff.mp
    (show (plan procedureReport content).map (·.placement) = some (.insertLine 6) by
      decide +kernel)
  have hfine : ¬IsMisplaced (lines content) := by
    rw [← commentOpen_take_insertionLine]
    decide +kernel
  exact ⟨f, hf, hplace, (insertion_takes_effect_iff hf hplace).2.1.mpr hfine⟩

/-- Two lines above the heading a comment is open, though it is closed above the heading. -/
theorem declaration_lost_in_comment : ¬∀ (v : Violation) (content : Text) (f : Fix) (n : ℕ),
    commentOpen (lines content) = false → plan v content = some f →
    f.placement = .insertLine n → ∃ d ∈ declarations (lines (Edit.apply content [f]).content),
      d.line = n ∧ d.source = .active := by
  intro h
  let content : Text := "Intro\n////\nnote\n////\n= Title"
  obtain ⟨f, hf, hlost⟩ := Option.map_eq_some_iff.mp
    (show ((plan procedureReport content).map fun f =>
        (f.placement, declarations (lines (Edit.apply content [f]).content))) =
        some (.insertLine 2, []) by decide +kernel)
  obtain ⟨hplace, hnil⟩ := Prod.mk.inj hlost
  obtain ⟨d, hd, -⟩ := h procedureReport content f 2 (by decide +kernel) hf hplace
  rw [hnil] at hd
  cases hd

end Errata.Rule.ContentType
