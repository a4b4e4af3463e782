import Errata.Proofs.Rule.DeclarationPlace
import Errata.Proofs.Text.Trim

/-!
# What stands around a new declaration

A new declaration never parts the comments that open a document and never joins the line below it:
it stands behind an opening comment block and the blank lines that follow it, else behind the
opening comment lines and at most two lines above the first heading, and the next line is blank if
there is one.
-/
namespace Errata.Rule.ContentType

open Markup Text

/-- Line `i` is the first one from line `k` on that is as `p` says, or the end if there is none. -/
structure IsNext (p : Text → Bool) (ls : List Text) (k i : ℕ) : Prop where
  from_le : k ≤ i
  le_length : i ≤ ls.length
  holds : ∀ line, ls[i]? = some line → p line
  none_before : ∀ j line, k ≤ j → j < i → ls[j]? = some line → p line = false

namespace IsNext

variable {p : Text → Bool} {ls : List Text} {k i j : ℕ}

theorem le (h : IsNext p ls k i) (h' : IsNext p ls k j) : i ≤ j := by
  by_contra hlt
  have hj : j < ls.length := by
    have := h.le_length
    omega
  have hline : ls[j]? = some ls[j] := List.getElem?_eq_getElem hj
  have hnone := h.none_before j ls[j] h'.from_le (by omega) hline
  simp [h'.holds _ hline] at hnone

theorem unique (h : IsNext p ls k i) (h' : IsNext p ls k j) : i = j :=
  Nat.le_antisymm (h.le h') (h'.le h)

theorem of_findIdx (hk : k ≤ ls.length) : IsNext p ls k (k + (ls.drop k).findIdx p) where
  from_le := Nat.le_add_right _ _
  le_length := by
    have hle : (ls.drop k).findIdx p ≤ (ls.drop k).length := List.findIdx_le_length
    rw [List.length_drop] at hle
    omega
  holds line hline := by
    rw [← List.getElem?_drop] at hline
    exact List.findIdx_of_getElem?_eq_some hline
  none_before i line hki hi hline := by
    obtain ⟨i, rfl⟩ := Nat.exists_eq_add_of_le hki
    rw [← List.getElem?_drop] at hline
    obtain ⟨hlt, rfl⟩ := List.getElem?_eq_some_iff.mp hline
    have hbefore : i < (ls.drop k).findIdx p := by omega
    simpa using List.not_of_lt_findIdx hbefore

theorem eq_findIdx (hk : k ≤ ls.length) :
    IsNext p ls k i ↔ i = k + (ls.drop k).findIdx p :=
  ⟨fun h => h.unique (of_findIdx hk), fun h => h ▸ of_findIdx hk⟩

theorem findIdx?_eq_some_iff (hk : k ≤ ls.length) {n : ℕ} :
    (ls.drop k).findIdx? p = some n ↔ IsNext p ls k (k + n) ∧ k + n < ls.length := by
  rw [List.findIdx?_eq_some_iff_findIdx_eq, eq_findIdx hk, List.length_drop]
  omega

end IsNext

theorem length_takeWhile (p : Text → Bool) (ls : List Text) :
    (ls.takeWhile p).length = ls.findIdx (!p ·) := by
  induction ls with
  | nil => rfl
  | cons line ls ih => cases hline : p line <;> simp [List.findIdx_cons, hline, ih]

theorem isNext_pastBlank {ls : List Text} {n : ℕ} (h : n ≤ ls.length) :
    IsNext (!Text.blank ·) ls n (pastBlank ls n) := by
  rw [pastBlank, length_takeWhile]
  exact .of_findIdx h

/-- A comment block opens the document: its delimiters are line `first`, above which there are only
blank lines, and line `close`. -/
structure IsOpeningBlock (ls : List Text) (first close : ℕ) : Prop where
  opens : IsNext (!Text.blank ·) ls 0 first
  fence : ∃ line, ls[first]? = some line ∧ isCommentFence line = true
  closes : IsNext isCommentFence ls (first + 1) close
  close_lt : close < ls.length

/-- Comment lines open the document, with nothing but blank lines above, between and after them, and
line `n` is the first other one, or the end. -/
structure IsOpeningRun (ls : List Text) (n : ℕ) : Prop where
  next : IsNext (fun line => !(Text.blank line || isLineComment line)) ls 0 n
  exists_comment : ∃ i line, i < n ∧ ls[i]? = some line ∧ isLineComment line = true

def isHeading (line : Text) : Bool :=
  List.isPrefixOf ['=', ' '] line || List.isPrefixOf ['=', '=', ' '] line

variable {ls : List Text}

/-- The place behind a comment block that opens the document is the next line that is not blank. -/
theorem afterCommentBlock?_eq_some_iff {n : ℕ} : afterCommentBlock? ls = some n ↔
    ∃ first close, IsOpeningBlock ls first close ∧ IsNext (!Text.blank ·) ls (close + 1) n := by
  have hstart : IsNext (!Text.blank ·) ls 0 (pastBlank ls 0) := isNext_pastBlank (Nat.zero_le _)
  have hrest : ∀ line rest, ls.drop (pastBlank ls 0) = line :: rest →
      ls[pastBlank ls 0]? = some line ∧ rest = ls.drop (pastBlank ls 0 + 1) := by
    intro line rest hdrop
    rw [← List.drop_drop, hdrop]
    exact ⟨by rw [← Nat.add_zero (pastBlank ls 0), ← List.getElem?_drop, hdrop]; rfl, rfl⟩
  simp only [afterCommentBlock?]
  constructor
  · intro h
    split at h
    · next first rest hdrop =>
      obtain ⟨hline, rfl⟩ := hrest _ _ hdrop
      have hlt := (List.getElem?_eq_some_iff.mp hline).1
      split at h
      · next hfence =>
        obtain ⟨m, hm, rfl⟩ := Option.map_eq_some_iff.mp h
        obtain ⟨hclose, hcloselt⟩ := (IsNext.findIdx?_eq_some_iff hlt).mp hm
        exact ⟨_, _, ⟨hstart, ⟨first, hline, hfence⟩, hclose, hcloselt⟩,
          isNext_pastBlank hcloselt⟩
      · cases h
    · cases h
  · rintro ⟨first, close, hblock, hn⟩
    obtain rfl := hblock.opens.unique hstart
    obtain ⟨line, hline, hfence⟩ := hblock.fence
    obtain ⟨hlt, rfl⟩ := List.getElem?_eq_some_iff.mp hline
    obtain ⟨m, rfl⟩ := Nat.exists_eq_add_of_le hblock.closes.from_le
    have hm := (IsNext.findIdx?_eq_some_iff hlt).mpr ⟨hblock.closes, hblock.close_lt⟩
    rw [List.drop_eq_getElem_cons hlt]
    refine (if_pos hfence).trans (Option.map_eq_some_iff.mpr ⟨m, hm, ?_⟩)
    exact (isNext_pastBlank hblock.close_lt).unique hn

theorem afterCommentBlock?_eq_none_iff :
    afterCommentBlock? ls = none ↔ ¬∃ first close, IsOpeningBlock ls first close := by
  rw [Option.eq_none_iff_forall_ne_some]
  constructor
  · rintro h ⟨first, close, hblock⟩
    exact h _ (afterCommentBlock?_eq_some_iff.mpr
      ⟨first, close, hblock, isNext_pastBlank hblock.close_lt⟩)
  · rintro h n hn
    obtain ⟨first, close, hblock, -⟩ := afterCommentBlock?_eq_some_iff.mp hn
    exact h ⟨first, close, hblock⟩

theorem afterLineComments_eq {n : ℕ} (h : IsOpeningRun ls n) : afterLineComments ls = n := by
  set run := ls.takeWhile fun line => Text.blank line || isLineComment line with hrun
  have hlength : run.length = n := by
    rw [hrun, length_takeWhile]
    simpa using ((IsNext.eq_findIdx (Nat.zero_le _)).mp h.next).symm
  obtain ⟨i, line, hi, hline, hcomment⟩ := h.exists_comment
  have hmem : line ∈ run := by
    have htake : run = ls.take n := by
      rw [← hlength]
      exact List.prefix_iff_eq_take.mp (List.takeWhile_prefix _)
    rw [htake]
    exact List.mem_of_getElem? (by rwa [List.getElem?_take_of_lt hi])
  have hblank : Text.blank line = false := by
    by_contra hblank
    rw [Bool.not_eq_false] at hblank
    have htrim := Text.trim_eq_nil_iff.mpr hblank
    simp [isLineComment, htrim] at hcomment
  have hnot : run.all Text.blank = false := List.all_eq_false.mpr ⟨line, hmem, by simp [hblank]⟩
  rw [afterLineComments, ← hrun, hnot, if_neg Bool.false_ne_true, hlength]

theorem afterLineComments_eq_zero (h : ¬∃ n, IsOpeningRun ls n) : afterLineComments ls = 0 := by
  set run := ls.takeWhile fun line => Text.blank line || isLineComment line with hrun
  rw [afterLineComments, ← hrun]
  refine if_pos (List.all_eq_true.mpr fun line hline => ?_)
  by_contra hblank
  have hcomment : isLineComment line = true := by
    have hkind := List.mem_takeWhile_imp hline
    rw [Bool.or_eq_true] at hkind
    exact hkind.resolve_left hblank
  obtain ⟨i, hi, rfl⟩ := List.mem_iff_getElem.mp hline
  have hnext : IsNext (fun line => !(Text.blank line || isLineComment line)) ls 0 run.length := by
    rw [hrun, length_takeWhile]
    simpa using IsNext.of_findIdx (Nat.zero_le ls.length)
  have hget : ls[i]? = some run[i] :=
    List.prefix_iff_getElem?.mp (List.takeWhile_prefix _) i hi
  exact h ⟨_, hnext, i, _, hi, hget, hcomment⟩

theorem headingLine?_eq_some_iff {n : ℕ} :
    headingLine? ls = some n ↔ IsNext isHeading ls 0 n ∧ n < ls.length := by
  have h := IsNext.findIdx?_eq_some_iff (p := isHeading) (Nat.zero_le ls.length) (n := n)
  rwa [List.drop_zero, Nat.zero_add] at h

theorem headingLine?_eq_none_iff :
    headingLine? ls = none ↔ ∀ line ∈ ls, isHeading line = false := List.findIdx?_eq_none_iff

/-- Line `n` is two lines above the first heading, but not above line `least`, or line `least` if
there is no heading. -/
def IsAtHeading (ls : List Text) (least n : ℕ) : Prop :=
  (∀ heading, IsNext isHeading ls 0 heading → heading < ls.length →
    n = max (heading - 2) least) ∧
  ((∀ line ∈ ls, isHeading line = false) → n = least)

theorem isAtHeading_insertionLine (h : ¬∃ first close, IsOpeningBlock ls first close) :
    IsAtHeading ls (afterLineComments ls) (insertionLine ls) := by
  rw [insertionLine, afterCommentBlock?_eq_none_iff.mpr h]
  dsimp only
  refine ⟨fun heading hnext hlt => ?_, fun hnone => ?_⟩
  · rw [headingLine?_eq_some_iff.mpr ⟨hnext, hlt⟩]
  · rw [headingLine?_eq_none_iff.mpr hnone]

theorem afterLineComments_le_insertionLine (h : ¬∃ first close, IsOpeningBlock ls first close) :
    afterLineComments ls ≤ insertionLine ls := by
  rw [insertionLine, afterCommentBlock?_eq_none_iff.mpr h]
  dsimp only
  split
  · exact Nat.le_max_right _ _
  · exact Nat.le_refl _

namespace PutsIn

variable {f : Fix} {content : Text} {n : ℕ} (h : PutsIn f content n)

include h

theorem pass_eq :
    Edit.pass (lines content) [f] = ⟨Edit.inserted (lines content) f, [f], []⟩ :=
  Edit.pass_of_inserts (by simp [h.placement, Placement.inserts]) (h.row_eq ▸ h.le_length)

/-- The line below the declaration is blank: the one that is put in with it, or the one that was
there. -/
theorem blank_below {line : Text}
    (hline : (Edit.inserted (lines content) f)[n + 1]? = some line) : Text.blank line := by
  rw [h.getElem?_inserted, h.newLines, List.cons_append, List.getElem?_cons_succ] at hline
  cases hnext : (lines content)[n]? with
  | none =>
    have hnil : (lines content).drop n = [] :=
      List.drop_eq_nil_of_le (List.getElem?_eq_none_iff.mp hnext)
    simp [hnext, hnil] at hline
  | some next =>
    cases hblank : Text.blank next with
    | true =>
      have hfirst : ((lines content).drop n)[0]? = some next := by
        rw [List.getElem?_drop, Nat.add_zero, hnext]
      simp only [hnext, Option.any_some, hblank, Bool.not_true, Bool.false_eq_true, if_false,
        List.nil_append, hfirst, Option.some_inj] at hline
      rwa [← hline]
    | false =>
      simp only [hnext, Option.any_some, hblank, Bool.not_false, if_true, List.singleton_append,
        List.getElem?_cons_zero, Option.some_inj] at hline
      rw [← hline]
      rfl

end PutsIn

/-- Where nothing is declared a declaration is put in, all lines stay in their order around it, and
the next line is blank if there is one. It stands at the next line that is not blank behind a
comment block that opens the document, or at the end; else behind the comment lines that open the
document, or two lines above the first heading if that is further down. -/
theorem insertion_is_legal (v : Violation) {content : Text}
    (h : declarations (lines content) = []) :
    let ls := lines content
    ∃ f n,
      let out := Edit.apply content [f]
      let buffer := (Edit.pass ls [f]).lines
      (plan v content = some f ∧ f.placement = .insertLine n ∧ n ≤ ls.length) ∧
      (out.applied = [f] ∧ out.skipped = []) ∧
      ((∃ put, buffer = ls.take n ++ put ++ ls.drop n) ∧
        buffer[n]? = some (declarationFor v.file) ∧
        ∀ line, buffer[n + 1]? = some line → Text.blank line) ∧
      (∀ first close, IsOpeningBlock ls first close →
        IsNext (!Text.blank ·) ls (close + 1) n) ∧
      ((¬∃ first close, IsOpeningBlock ls first close) →
        (∀ behind, IsOpeningRun ls behind → behind ≤ n ∧ IsAtHeading ls behind n) ∧
        ((¬∃ behind, IsOpeningRun ls behind) → IsAtHeading ls 0 n)) := by
  intro ls
  obtain ⟨f, hf, hplacement, -⟩ := plan_of_nil v h
  have hputs := putsIn_of_plan hf hplacement
  have hnew := hputs.newLines
  rw [violation_of_plan hf] at hnew
  refine ⟨f, insertionLine ls, ⟨hf, hplacement, insertionLine_le ls⟩, ?_, ⟨?_, ?_, ?_⟩, ?_, ?_⟩
  case refine_1 => simp only [Edit.apply, hputs.pass_eq, and_self]
  case refine_2 => exact ⟨Edit.newLines f, by rw [hputs.pass_eq, hputs.inserted_eq]⟩
  case refine_3 =>
    have hfirst := hputs.getElem?_inserted 0
    rw [hnew, List.cons_append, List.getElem?_cons_zero] at hfirst
    rw [hputs.pass_eq]
    exact hfirst
  case refine_4 =>
    rw [hputs.pass_eq]
    exact fun line hline => hputs.blank_below hline
  case refine_5 =>
    intro first close hblock
    have hplace := isNext_pastBlank hblock.close_lt
    rw [insertionLine, afterCommentBlock?_eq_some_iff.mpr ⟨first, close, hblock, hplace⟩]
    exact hplace
  case refine_6 =>
    intro hblock
    refine ⟨fun behind hrun => ?_, fun hrun => ?_⟩
    · rw [← afterLineComments_eq hrun]
      exact ⟨afterLineComments_le_insertionLine hblock, isAtHeading_insertionLine hblock⟩
    · rw [← afterLineComments_eq_zero hrun]
      exact isAtHeading_insertionLine hblock

/-- The declaration stands behind the blank line that follows the comment, right above the title. -/
theorem insertion_is_legal_behind_block :
    let content : Text := "\n////\nold\n////\n\n= Title"
    declarations (lines content) = [] ∧ IsOpeningBlock (lines content) 1 3 ∧
      ∃ f, plan procedureReport content = some f ∧ f.placement = .insertLine 5 ∧
        (Edit.apply content [f]).applied = [f] := by
  intro content
  have hnil : declarations (lines content) = [] := by decide +kernel
  have hblock : IsOpeningBlock (lines content) 1 3 := {
    opens := (IsNext.eq_findIdx (by decide +kernel)).mpr (by decide +kernel)
    fence := ⟨"////", by decide +kernel, by decide +kernel⟩
    closes := (IsNext.eq_findIdx (by decide +kernel)).mpr (by decide +kernel)
    close_lt := by decide +kernel }
  obtain ⟨f, n, ⟨hf, hplacement, -⟩, ⟨happlied, -⟩, -, hplace, -⟩ :=
    insertion_is_legal procedureReport hnil
  have hn : n = 5 := ((IsNext.eq_findIdx (by decide +kernel)).mp (hplace 1 3 hblock)).trans
    (by decide +kernel)
  exact ⟨hnil, hblock, f, hf, hn ▸ hplacement, happlied⟩

end Errata.Rule.ContentType
