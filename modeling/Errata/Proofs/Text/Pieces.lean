import Errata.Proofs.Text.Lines
import Errata.Proofs.Text.Trim

/-!
# Trimmed pieces

White space around a text is white space around its first and its last piece, so a text that is
split and whose pieces are trimmed need not be trimmed before.
-/
namespace Errata.Text

variable {sep c : Char}

theorem length_splitOn (sep : Char) (t : Text) : (t.splitOn sep).length = t.count sep + 1 := by
  induction t with
  | nil => rfl
  | cons c t ih =>
    rw [List.splitOn_cons_eq_if_modifyHead, List.count_cons]
    split <;> simp_all

theorem splitOn_append {s : Text} (hs : sep ∉ s) (t : Text) :
    (s ++ t).splitOn sep = (t.splitOn sep).modifyHead (s ++ ·) := by
  induction s with
  | nil =>
    rw [List.nil_append]
    cases t.splitOn sep <;> rfl
  | cons c s ih =>
    simp only [List.mem_cons, not_or] at hs
    rw [List.cons_append, List.splitOn_cons_eq_if_modifyHead, ih hs.2,
      if_neg (by simpa using Ne.symm hs.1)]
    cases t.splitOn sep <;> rfl

theorem splitOn_concat (hc : c ≠ sep) (t : Text) :
    ∃ before last, t.splitOn sep = before ++ [last] ∧
      (t ++ [c]).splitOn sep = before ++ [last ++ [c]] := by
  induction t with
  | nil => exact ⟨[], [], rfl, by simp [List.splitOn_cons_eq_if_modifyHead, hc]⟩
  | cons x t ih =>
    obtain ⟨before, last, hpieces, hconcat⟩ := ih
    rw [List.cons_append, List.splitOn_cons_eq_if_modifyHead, List.splitOn_cons_eq_if_modifyHead,
      hpieces, hconcat]
    by_cases hx : x = sep
    · exact ⟨[] :: before, last, by simp [hx], by simp [hx]⟩
    · cases before with
      | nil => exact ⟨[], x :: last, by simp [hx], by simp [hx]⟩
      | cons first before => exact ⟨(x :: first) :: before, last, by simp [hx], by simp [hx]⟩

theorem trim_pieces_concat_blank (hsep : ¬isBlank sep) (hc : isBlank c) (t : Text) :
    ((t ++ [c]).splitOn sep).map trim = (t.splitOn sep).map trim := by
  have hne : c ≠ sep := by
    rintro rfl
    exact hsep hc
  obtain ⟨before, last, hpieces, hconcat⟩ := splitOn_concat hne t
  rw [hpieces, hconcat, List.map_append, List.map_append, List.map_singleton, List.map_singleton,
    trim_concat_blank hc]

theorem trim_cons_blank (hc : isBlank c) (t : Text) : trim (c :: t) = trim t := by
  rw [trim, trimStart, List.dropWhile_cons_of_pos hc, trim, trimStart]

theorem trim_pieces_cons_blank (hsep : ¬isBlank sep) (hc : isBlank c) (t : Text) :
    ((c :: t).splitOn sep).map trim = (t.splitOn sep).map trim := by
  have hne : c ≠ sep := by
    rintro rfl
    exact hsep hc
  obtain ⟨first, pieces, hpieces⟩ := List.exists_cons_of_ne_nil (List.splitOn_ne_nil sep t)
  rw [List.splitOn_cons_eq_if_modifyHead, if_neg (by simpa using hne), hpieces,
    List.modifyHead_cons, List.map_cons, trim_cons_blank hc, List.map_cons]

theorem trim_pieces_trim (hsep : ¬isBlank sep) (t : Text) :
    ((trim t).splitOn sep).map trim = (t.splitOn sep).map trim := by
  have hend : ∀ s : Text, ((trimEnd s).splitOn sep).map trim = (s.splitOn sep).map trim := by
    intro s
    induction s using List.reverseRecOn with
    | nil => rfl
    | append_singleton s c ih =>
      rw [trimEnd, dropEndWhile_concat]
      split
      · next hc => rw [← trimEnd, ih, trim_pieces_concat_blank hsep hc]
      · rfl
  have hstart : ((trimStart t).splitOn sep).map trim = (t.splitOn sep).map trim := by
    unfold trimStart
    induction t with
    | nil => rfl
    | cons c t ih =>
      rw [List.dropWhile_cons]
      split
      · next hc => rw [ih, trim_pieces_cons_blank hsep hc]
      · rfl
  rw [trim, hend, hstart]

end Errata.Text
