import Errata.Edit
import Errata.Proofs.Text.Boundary

/-!
# The occurrence that a report means

A replacement is made in bytes: where nothing is found from the column on, the search goes back over
a window that ends the needle's length behind the column, moved on to the next boundary. The window
holds every occurrence that is left, so what is replaced is the occurrence that `Text.findNear?`
gives in characters.
-/
namespace Errata.Edit

open Text (OccursAt IsNearest offset size)

variable {needle line : Text} {column start : ℕ}

/-- The search for the end of the window comes to a boundary, and no occurrence that starts before the
column reaches out of the window. -/
theorem exists_window (needle : Text) (column : ℕ) (line : Text) :
    ∃ stop, Text.roundUp? (min (offset column line + size needle) (size line)) line =
        some (offset stop line) ∧
      ∀ i < column, OccursAt needle line i → i + needle.length ≤ stop := by
  cases hround : Text.roundUp? (min (offset column line + size needle) (size line)) line with
  | none =>
    have hnone := Text.roundUp?_eq_none_iff.mp hround (size line) (Nat.min_le_right _ _)
    rw [Text.isBoundary_size] at hnone
    cases hnone
  | some byte =>
    obtain ⟨hle, hboundary⟩ := Text.isBoundary_of_roundUp? hround
    obtain ⟨stop, -, rfl⟩ := Text.isBoundary_iff.mp hboundary
    refine ⟨stop, rfl, fun i hi hocc => ?_⟩
    by_contra hlt
    -- the window would end before the occurrence does, which is no later than it may end
    have hlen := hocc.add_length_le
    have hcut : offset stop line < offset (i + needle.length) line :=
      Text.offset_lt_of_lt (by omega) hlen
    have hend : offset (i + needle.length) line ≤ size line :=
      Text.offset_length line ▸ Text.offset_le_of_le hlen line
    have hstart := Text.offset_le_of_le (Nat.le_of_lt hi) line
    rw [hocc.offset_add_length] at hcut hend
    omega

/-- The search in bytes finds what the search in characters finds. -/
theorem locate?_eq (hn : needle ≠ []) (column : ℕ) (line : Text) :
    locate? needle column line =
      some ((Text.findNear? needle column line).map fun i => offset i line) := by
  rw [locate?, Text.startingAt?_offset]
  simp only [Option.bind_eq_bind, Option.bind_some, Text.byteOf?, Text.findNear?]
  cases hfind : Text.find? needle (line.drop column) with
  | some i => simp [Text.offset_add]
  | none =>
    have hnone := Text.find?_eq_none_iff.mp hfind
    obtain ⟨stop, hround, hwindow⟩ := exists_window needle column line
    have hall : ∀ i, OccursAt needle line i → i + needle.length ≤ stop := by
      intro i hocc
      refine hwindow i ?_ hocc
      by_contra hge
      refine hnone (i - column) ((Text.occursAt_drop hn).mpr ?_)
      rwa [Nat.add_sub_cancel' (by omega)]
    simp only [Option.map_none, Option.none_or, hround, Option.bind_some, Text.upTo?_offset,
      Text.lastByteOf?, Text.findLast?_take hall]
    cases hlast : Text.findLast? needle line with
    | none => rfl
    | some i =>
      have hocc := (Text.findLast?_eq_some_iff.mp hlast).1
      have hi := hall i hocc
      rw [Option.map_some, Option.map_some, Text.offset_take (by omega)]

theorem replaceNear?_nil (column : ℕ) (new line : Text) :
    replaceNear? [] column new line = some (line, false) := rfl

theorem replaceNear?_of_isNearest (hn : needle ≠ []) (h : IsNearest needle line column start)
    (new : Text) : replaceNear? needle column new line =
      some (Text.overwrite line start needle.length new, true) := by
  rw [replaceNear?, if_neg (by simpa using hn), locate?_eq hn,
    (Text.findNear?_eq_some_iff hn).mpr h, Option.map_some]
  simp [Text.overwriteBytes?_of_occursAt new h.1]

theorem replaceNear?_of_not_occursAt (hn : needle ≠ []) (h : ∀ i, ¬OccursAt needle line i)
    (column : ℕ) (new : Text) : replaceNear? needle column new line = some (line, false) := by
  rw [replaceNear?, if_neg (by simpa using hn), locate?_eq hn,
    (Text.findNear?_eq_none_iff hn).mpr h]
  rfl

theorem overwriteNear?_eq (needle : Text) (column : ℕ) (new line : Text) :
    overwriteNear? needle column new line =
      if needle.isEmpty then none
      else (Text.findNear? needle column line).map fun start =>
        Text.overwrite line start needle.length new := by
  rw [overwriteNear?]
  by_cases hn : needle = []
  · rw [hn, replaceNear?_nil]
    rfl
  · rw [if_neg (by simpa using hn)]
    cases hfind : Text.findNear? needle column line with
    | none =>
      rw [replaceNear?_of_not_occursAt hn ((Text.findNear?_eq_none_iff hn).mp hfind)]
      rfl
    | some start =>
      rw [replaceNear?_of_isNearest hn ((Text.findNear?_eq_some_iff hn).mp hfind)]
      rfl

/-- A replacement always comes to its end: no cut goes through a character, and the boundary behind
the window is met. It leaves the line as it is exactly if there is no needle or the needle stands
nowhere. Otherwise it writes over one occurrence and leaves what is before and behind it: the first
one from the column on, or the last one in the line if none starts there. -/
theorem nearest_occurrence_replaced (needle : Text) (column : ℕ) (new line : Text) :
    ∃ edited found, replaceNear? needle column new line = some (edited, found) ∧
      (found = false ↔ needle = [] ∨ ∀ i, ¬OccursAt needle line i) ∧
      (found = false → edited = line) ∧
      (found = true → ∃ before behind, line = before ++ needle ++ behind ∧
        edited = before ++ new ++ behind ∧ IsNearest needle line column before.length) := by
  by_cases hn : needle = []
  · subst hn
    exact ⟨line, false, replaceNear?_nil column new line, by simp, fun _ => rfl, nofun⟩
  · by_cases hocc : ∃ i, OccursAt needle line i
    · obtain ⟨i, hi⟩ := hocc
      obtain ⟨start, hstart⟩ := hi.exists_isNearest hn column
      refine ⟨_, true, replaceNear?_of_isNearest hn hstart new, ?_, nofun, fun _ => ?_⟩
      · simpa [hn] using ⟨i, hi⟩
      · obtain ⟨hle, behind, hbehind⟩ := hstart.1
        have hlen : (line.take start).length = start := List.length_take_of_le hle
        refine ⟨line.take start, behind, ?_, ?_, hlen.symm ▸ hstart⟩
        · rw [List.append_assoc, hbehind, List.take_append_drop]
        · rw [Text.overwrite, ← List.drop_drop, ← hbehind, List.drop_left]
    · push Not at hocc
      exact ⟨line, false, replaceNear?_of_not_occursAt hn hocc column new,
        by simp [hocc], fun _ => rfl, nofun⟩

example : overwriteNear? "&amp;" 4 "\x7bamp\x7d" "é &amp; é" = some "é \x7bamp\x7d é" := by
  cbv

end Errata.Edit
