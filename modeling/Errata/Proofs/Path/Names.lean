import Errata.Path.Basic
import Errata.Proofs.Text.Lines

/-!
# Names in paths

The names among the components of a path hold no separator and are neither empty nor one of the
two dotted words, so that a path can be put together from them and taken apart again.
-/
namespace Errata.Path

/-- Names that stand for themselves between separators. -/
def AreNames (names : List Text) : Prop :=
  ∀ n ∈ names, n ≠ [] ∧ n ≠ ['.'] ∧ n ≠ ['.', '.'] ∧ '/' ∉ n

theorem ofPiece_eq_name_iff {piece n : Text} :
    ofPiece piece = some (.name n) ↔
      piece = n ∧ n ≠ [] ∧ n ≠ ['.'] ∧ n ≠ ['.', '.'] := by
  unfold ofPiece
  grind

theorem name_mem_components {p : Path} {n : Text} (h : .name n ∈ p.components) :
    n ≠ [] ∧ n ≠ ['.'] ∧ n ≠ ['.', '.'] ∧ '/' ∉ n := by
  have hpiece : n ∈ p.text.splitOn '/' ∧ ofPiece n = some (.name n) := by
    unfold components at h
    split at h
    · simp at h
    · next first rest hs =>
      rw [hs]
      rcases List.mem_append.mp h with h | h
      · split at h
        · simp at h
        · split at h
          · simp at h
          · have hp : ofPiece first = some (.name n) := by simpa using h
            obtain ⟨rfl, -⟩ := ofPiece_eq_name_iff.mp hp
            exact ⟨by simp, hp⟩
      · obtain ⟨piece, hm, hp⟩ := List.mem_filterMap.mp h
        obtain ⟨rfl, -⟩ := ofPiece_eq_name_iff.mp hp
        exact ⟨by simp [hm], hp⟩
  obtain ⟨-, h⟩ := ofPiece_eq_name_iff.mp hpiece.2
  exact ⟨h.1, h.2.1, h.2.2, Text.not_mem_of_mem_splitOn hpiece.1⟩

theorem areNames_filterMap {cs : List Component} {p : Path} (h : ∀ c ∈ cs, c ∈ p.components) :
    AreNames (cs.filterMap Component.name?) := by
  intro n hn
  obtain ⟨c, hc, hname⟩ := List.mem_filterMap.mp hn
  cases c with
  | name m =>
    obtain rfl := Option.some.inj hname
    exact name_mem_components (h _ hc)
  | root | current | parent => simp [Component.name?] at hname

theorem splitOn_ofNames {names : List Text} (h : AreNames names) (hne : names ≠ []) :
    (ofNames names).text.splitOn '/' = names :=
  List.splitOn_intercalate '/' (fun n hn => (h n hn).2.2.2) hne

theorem isAbsolute_ofNames {names : List Text} (h : AreNames names) :
    (ofNames names).isAbsolute = false := by
  cases names with
  | nil => rfl
  | cons first rest =>
    obtain ⟨hne, -, -, hsep⟩ := h first (by simp)
    obtain ⟨c, cs, rfl⟩ := List.exists_cons_of_ne_nil hne
    have hc : c ≠ '/' := by
      rintro rfl
      simp at hsep
    cases rest <;> simp [ofNames, isAbsolute, List.intercalate, List.intersperse, hc]

end Errata.Path
