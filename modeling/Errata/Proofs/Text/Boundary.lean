import Errata.Proofs.Text.Search
import Errata.Text.Boundary

/-!
# Boundaries of a text

The boundaries are the bytes at which the characters start, and the end of the text. A search for
the next boundary comes to one of them unless it starts behind the last, and the cuts that `Text`
makes there in bytes are those that it makes in characters.
-/
namespace Errata.Text

variable {t needle : Text} {i j n : ℕ}

@[simp] theorem size_nil : size [] = 0 := rfl

@[simp] theorem size_cons (c : Char) (t : Text) : size (c :: t) = c.utf8Size + size t := rfl

@[simp] theorem size_append (s t : Text) : size (s ++ t) = size s + size t := by
  induction s with
  | nil => simp
  | cons c s ih => simp [ih, Nat.add_assoc]

theorem length_le_size (t : Text) : t.length ≤ size t := by
  induction t with
  | nil => exact Nat.le_refl 0
  | cons c t ih =>
    have hpos := c.utf8Size_pos
    rw [List.length_cons, size_cons]
    omega

theorem splitAt?_append (before behind : Text) :
    splitAt? (size before) (before ++ behind) = some (before, behind) := by
  induction before with
  | nil => cases behind <;> rfl
  | cons c before ih =>
    have hpos := c.utf8Size_pos
    rw [size_cons, List.cons_append, splitAt?, if_neg (by omega), if_pos (by omega),
      Nat.add_sub_cancel_left, ih, Option.map_some]

theorem eq_append_of_splitAt? {before behind : Text} (h : splitAt? n t = some (before, behind)) :
    before ++ behind = t ∧ size before = n := by
  fun_induction splitAt? n t generalizing before with
  | case1 =>
    obtain ⟨rfl, rfl⟩ := Prod.mk.inj (Option.some.inj h)
    exact ⟨rfl, rfl⟩
  | case2 => cases h
  | case3 c t =>
    obtain ⟨rfl, rfl⟩ := Prod.mk.inj (Option.some.inj h)
    exact ⟨rfl, rfl⟩
  | case4 n c t hn hle ih =>
    obtain ⟨⟨before, behind⟩, hsplit, heq⟩ := Option.map_eq_some_iff.mp h
    obtain ⟨rfl, rfl⟩ := Prod.mk.inj heq
    obtain ⟨rfl, hsize⟩ := ih hsplit
    exact ⟨rfl, by rw [size_cons]; omega⟩
  | case5 => cases h

theorem splitAt?_eq_some_iff {before behind : Text} :
    splitAt? n t = some (before, behind) ↔ before ++ behind = t ∧ size before = n := by
  refine ⟨eq_append_of_splitAt?, ?_⟩
  rintro ⟨rfl, rfl⟩
  exact splitAt?_append before behind

theorem splitAt?_offset (i : ℕ) (t : Text) :
    splitAt? (offset i t) t = some (t.take i, t.drop i) :=
  splitAt?_eq_some_iff.mpr ⟨List.take_append_drop i t, rfl⟩

theorem upTo?_offset (i : ℕ) (t : Text) : upTo? (offset i t) t = some (t.take i) := by
  rw [upTo?, splitAt?_offset, Option.map_some]

theorem startingAt?_offset (i : ℕ) (t : Text) :
    startingAt? (offset i t) t = some (t.drop i) := by
  rw [startingAt?, splitAt?_offset, Option.map_some]

theorem offset_length (t : Text) : offset t.length t = size t := by
  rw [offset, List.take_length]

theorem offset_add (i j : ℕ) (t : Text) :
    offset (i + j) t = offset i t + offset j (t.drop i) := by
  rw [offset, List.take_add, size_append, offset, offset]

theorem offset_le_of_le (h : i ≤ j) (t : Text) : offset i t ≤ offset j t := by
  obtain ⟨k, rfl⟩ := Nat.exists_eq_add_of_le h
  rw [offset_add]
  exact Nat.le_add_right _ _

theorem offset_lt_of_lt (h : i < j) (hj : j ≤ t.length) : offset i t < offset j t := by
  obtain ⟨k, rfl⟩ := Nat.exists_eq_add_of_le (Nat.le_of_lt h)
  have hlen : (t.drop i).take k ≠ [] := by
    rw [Ne, ← List.length_eq_zero_iff, List.length_take, List.length_drop]
    omega
  have hpos := length_le_size ((t.drop i).take k)
  have hne := List.length_pos_of_ne_nil hlen
  rw [offset_add, offset, offset]
  omega

theorem offset_take (h : i ≤ j) (t : Text) : offset i (t.take j) = offset i t := by
  rw [offset, List.take_take, Nat.min_eq_left h, offset]

theorem OccursAt.offset_add_length (h : OccursAt needle t i) :
    offset (i + needle.length) t = offset i t + size needle := by
  obtain ⟨-, rest, hrest⟩ := h
  rw [offset_add, ← hrest, offset, offset, List.take_left]

theorem isBoundary_iff : isBoundary n t = true ↔ ∃ i ≤ t.length, offset i t = n := by
  rw [isBoundary, Option.isSome_iff_exists, Prod.exists]
  constructor
  · rintro ⟨before, behind, h⟩
    obtain ⟨rfl, rfl⟩ := splitAt?_eq_some_iff.mp h
    exact ⟨before.length, by simp, by rw [offset, List.take_left]⟩
  · rintro ⟨i, -, rfl⟩
    exact ⟨_, _, splitAt?_offset i t⟩

theorem isBoundary_size (t : Text) : isBoundary (size t) t = true :=
  isBoundary_iff.mpr ⟨t.length, Nat.le_refl _, offset_length t⟩

theorem le_size_of_isBoundary (h : isBoundary n t = true) : n ≤ size t := by
  obtain ⟨i, hi, rfl⟩ := isBoundary_iff.mp h
  rw [← offset_length]
  exact offset_le_of_le hi t

theorem isBoundary_of_roundUp? {stop : ℕ} (h : roundUp? n t = some stop) :
    n ≤ stop ∧ isBoundary stop t = true := by
  fun_induction roundUp? n t with
  | case1 n hb =>
    obtain rfl := Option.some.inj h
    exact ⟨Nat.le_refl _, hb⟩
  | case2 n hb hlt ih =>
    obtain ⟨hle, hstop⟩ := ih h
    exact ⟨by omega, hstop⟩
  | case3 => cases h

/-- The search for a boundary fails only where going on would never come to one. -/
theorem roundUp?_eq_none_iff :
    roundUp? n t = none ↔ ∀ stop, n ≤ stop → isBoundary stop t = false := by
  constructor
  · intro h stop hle
    fun_induction roundUp? n t with
    | case1 => cases h
    | case2 n hb hlt ih =>
      rcases Nat.eq_or_lt_of_le hle with rfl | hlt
      · exact Bool.eq_false_iff.mpr hb
      · exact ih h hlt
    | case3 n hb hge =>
      have hne : n ≠ size t := fun heq => hb (heq ▸ isBoundary_size t)
      refine Bool.eq_false_iff.mpr fun hstop => ?_
      have hsize := le_size_of_isBoundary hstop
      omega
  · intro h
    by_contra hsome
    obtain ⟨stop, hstop⟩ := Option.ne_none_iff_exists'.mp hsome
    obtain ⟨hle, hb⟩ := isBoundary_of_roundUp? hstop
    rw [h stop hle] at hb
    cases hb

theorem overwriteBytes?_of_occursAt (new : Text) (h : OccursAt needle t i) :
    overwriteBytes? t (offset i t) (offset i t + size needle) new =
      some (overwrite t i needle.length new) := by
  rw [overwriteBytes?, ← h.offset_add_length, upTo?_offset, startingAt?_offset, overwrite]
  rfl

end Errata.Text
