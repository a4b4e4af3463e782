import Errata.Text.Basic
import Mathlib.Data.List.Infix

/-!
# Searching a text

What the searches of `Text` find, in terms of occurrences: the first occurrence, the last one, and
the one that a report at a column means.
-/
namespace Errata.Text

/-- `needle` stands at position `i` of `t`. -/
def OccursAt (needle t : Text) (i : ℕ) : Prop := i ≤ t.length ∧ needle <+: t.drop i

instance (needle t : Text) (i : ℕ) : Decidable (OccursAt needle t i) :=
  inferInstanceAs (Decidable (_ ∧ _))

theorem occursAt_cons_succ {needle t : Text} {c : Char} {i : ℕ} :
    OccursAt needle (c :: t) (i + 1) ↔ OccursAt needle t i := by
  simp [OccursAt]

theorem occursAt_nil {needle : Text} {i : ℕ} : OccursAt needle [] i ↔ i = 0 ∧ needle = [] := by
  simp [OccursAt]

theorem occursAt_drop {needle t : Text} (hn : needle ≠ []) {n i : ℕ} :
    OccursAt needle (t.drop n) i ↔ OccursAt needle t (n + i) := by
  by_cases h : n ≤ t.length
  · simp only [OccursAt, List.length_drop, List.drop_drop]
    exact and_congr_left fun _ => by omega
  · have hlen : t.length ≤ n := by omega
    have hfar : ¬n + i ≤ t.length := by omega
    simp [List.drop_eq_nil_of_le hlen, hn, OccursAt, hfar]

theorem OccursAt.add_length_le {needle t : Text} {i : ℕ} (h : OccursAt needle t i) :
    i + needle.length ≤ t.length := by
  have hlength := h.2.length_le
  rw [List.length_drop] at hlength
  have hi := h.1
  omega

theorem occursAt_take {needle t : Text} {n i : ℕ} :
    OccursAt needle (t.take n) i ↔ OccursAt needle t i ∧ i + needle.length ≤ n := by
  constructor
  · intro h
    have hle := h.add_length_le
    rw [List.length_take] at hle
    refine ⟨⟨by omega, ?_⟩, by omega⟩
    have hpre := h.2
    rw [List.drop_take] at hpre
    exact hpre.trans (List.take_prefix _ _)
  · rintro ⟨h, hn⟩
    have hle := h.add_length_le
    refine ⟨by rw [List.length_take]; omega, ?_⟩
    rw [List.drop_take, List.prefix_take_iff]
    exact ⟨h.2, by omega⟩

theorem OccursAt.of_isPrefix {a b t : Text} {i : ℕ} (h : OccursAt b t i) (hab : a <+: b) :
    OccursAt a t i :=
  ⟨h.1, hab.trans h.2⟩

theorem OccursAt.append_singleton {needle t : Text} {c : Char} {i : ℕ} (h : OccursAt needle t i)
    (hc : (t.drop (i + needle.length)).head? = some c) : OccursAt (needle ++ [c]) t i := by
  obtain ⟨hi, rest, hrest⟩ := h
  refine ⟨hi, ?_⟩
  rw [← List.drop_drop, ← hrest, List.drop_left] at hc
  obtain ⟨tail, rfl⟩ : ∃ tail, rest = c :: tail := by
    cases rest with
    | nil => simp at hc
    | cons d tail => exact ⟨tail, by simpa using hc⟩
  exact ⟨tail, by rw [← hrest]; simp⟩

theorem find?_eq_none_iff {needle t : Text} :
    find? needle t = none ↔ ∀ i, ¬OccursAt needle t i := by
  induction t with
  | nil => by_cases h : needle = [] <;> simp [find?, occursAt_nil, h]
  | cons c t ih =>
    rw [find?]
    by_cases hp : needle <+: c :: t
    · have h0 : OccursAt needle (c :: t) 0 := ⟨Nat.zero_le _, hp⟩
      simp only [List.isPrefixOf_iff_prefix, hp, if_true, reduceCtorEq, false_iff]
      exact fun h => h 0 h0
    · simp only [List.isPrefixOf_iff_prefix, hp, if_false, Option.map_eq_none_iff, ih]
      constructor
      · intro h i
        cases i with
        | zero => exact fun h0 => hp h0.2
        | succ i => simpa [occursAt_cons_succ] using h i
      · exact fun h i => by simpa [occursAt_cons_succ] using h (i + 1)

theorem find?_eq_some_iff {needle t : Text} {i : ℕ} :
    find? needle t = some i ↔ OccursAt needle t i ∧ ∀ j < i, ¬OccursAt needle t j := by
  induction t generalizing i with
  | nil =>
    simp only [find?, occursAt_nil, List.isEmpty_iff]
    grind
  | cons c t ih =>
    rw [find?]
    by_cases hp : needle <+: c :: t
    · have h0 : OccursAt needle (c :: t) 0 := ⟨Nat.zero_le _, hp⟩
      simp only [List.isPrefixOf_iff_prefix, hp, if_true, Option.some.injEq]
      constructor
      · rintro rfl
        exact ⟨h0, by simp⟩
      · rintro ⟨-, h⟩
        by_contra hi
        exact h 0 (by omega) h0
    · have h0 : ¬OccursAt needle (c :: t) 0 := fun h => hp h.2
      simp only [List.isPrefixOf_iff_prefix, hp, if_false, Option.map_eq_some_iff, ih]
      constructor
      · rintro ⟨k, ⟨hk, hlt⟩, rfl⟩
        refine ⟨occursAt_cons_succ.mpr hk, fun j hj => ?_⟩
        cases j with
        | zero => exact h0
        | succ j => simpa [occursAt_cons_succ] using hlt j (by omega)
      · rintro ⟨hi, hlt⟩
        cases i with
        | zero => exact absurd hi h0
        | succ i =>
          exact ⟨i, ⟨occursAt_cons_succ.mp hi,
            fun j hj => by simpa [occursAt_cons_succ] using hlt (j + 1) (by omega)⟩, rfl⟩

theorem findLast?_eq_none_iff {needle t : Text} :
    findLast? needle t = none ↔ ∀ i, ¬OccursAt needle t i := by
  induction t with
  | nil => by_cases h : needle = [] <;> simp [findLast?, occursAt_nil, h]
  | cons c t ih =>
    rw [findLast?]
    cases ht : findLast? needle t with
    | some k =>
      have hne : ¬∀ i, ¬OccursAt needle t i := by rw [← ih, ht]; simp
      simp only [reduceCtorEq, false_iff]
      exact fun h => hne fun i => by simpa [occursAt_cons_succ] using h (i + 1)
    | none =>
      have hnone := ih.mp ht
      simp only [List.isPrefixOf_iff_prefix, ite_eq_right_iff, reduceCtorEq, imp_false]
      constructor
      · intro h i
        cases i with
        | zero => exact fun h0 => h h0.2
        | succ i => simpa [occursAt_cons_succ] using hnone i
      · exact fun h hp => h 0 ⟨Nat.zero_le _, hp⟩

theorem findLast?_eq_some_iff {needle t : Text} {i : ℕ} :
    findLast? needle t = some i ↔ OccursAt needle t i ∧ ∀ j, i < j → ¬OccursAt needle t j := by
  induction t generalizing i with
  | nil =>
    simp only [findLast?, occursAt_nil, List.isEmpty_iff]
    grind
  | cons c t ih =>
    rw [findLast?]
    cases ht : findLast? needle t with
    | some k =>
      obtain ⟨hk, hlast⟩ := ih.mp ht
      simp only [Option.some.injEq]
      constructor
      · rintro rfl
        refine ⟨occursAt_cons_succ.mpr hk, fun j hj => ?_⟩
        obtain ⟨j, rfl⟩ : ∃ m, j = m + 1 := ⟨j - 1, by omega⟩
        simpa [occursAt_cons_succ] using hlast j (by omega)
      · rintro ⟨hi, hafter⟩
        have hge : ¬i < k + 1 := fun hlt => hafter _ hlt (occursAt_cons_succ.mpr hk)
        obtain ⟨i, rfl⟩ : ∃ m, i = m + 1 := ⟨i - 1, by omega⟩
        have hle : ¬k < i := fun hlt => hlast i hlt (occursAt_cons_succ.mp hi)
        omega
    | none =>
      have hnone := findLast?_eq_none_iff.mp ht
      have hsucc : ∀ j, 0 < j → ¬OccursAt needle (c :: t) j := by
        intro j hj
        obtain ⟨j, rfl⟩ : ∃ m, j = m + 1 := ⟨j - 1, by omega⟩
        simpa [occursAt_cons_succ] using hnone j
      simp only [List.isPrefixOf_iff_prefix]
      split
      · next hp =>
        simp only [Option.some.injEq]
        constructor
        · rintro rfl
          exact ⟨⟨Nat.zero_le _, hp⟩, hsucc⟩
        · rintro ⟨hi, -⟩
          by_contra hne
          exact hsucc i (by omega) hi
      · next hp =>
        simp only [reduceCtorEq, false_iff]
        rintro ⟨hi, -⟩
        cases i with
        | zero => exact hp hi.2
        | succ i => exact hsucc (i + 1) (by omega) hi

/-- Of a text only as much need be searched for the last occurrence as the occurrences reach
over. -/
theorem findLast?_take {needle t : Text} {n : ℕ}
    (h : ∀ i, OccursAt needle t i → i + needle.length ≤ n) :
    findLast? needle (t.take n) = findLast? needle t := by
  have hocc : ∀ i, OccursAt needle (t.take n) i ↔ OccursAt needle t i := fun i => by
    rw [occursAt_take, and_iff_left_of_imp (h i)]
  ext i
  simp only [findLast?_eq_some_iff, hocc]

/-- Position `i` is the first one from `column` on at which `needle` stands, or, where there is no
such position, the last one before `column`. -/
def IsNearest (needle t : Text) (column i : ℕ) : Prop :=
  OccursAt needle t i ∧
    ((column ≤ i ∧ ∀ j, column ≤ j → j < i → ¬OccursAt needle t j) ∨
      (i < column ∧ ∀ j, i < j → ¬OccursAt needle t j))

theorem IsNearest.unique {needle t : Text} {column i j : ℕ} (hi : IsNearest needle t column i)
    (hj : IsNearest needle t column j) : i = j := by
  obtain ⟨oi, hi⟩ := hi
  obtain ⟨oj, hj⟩ := hj
  rcases Nat.lt_trichotomy i j with hlt | rfl | hlt
  · rcases hi with ⟨hc, -⟩ | ⟨-, hi⟩
    · rcases hj with ⟨-, hj⟩ | ⟨hlt', -⟩
      · exact absurd oi (hj i hc hlt)
      · omega
    · exact absurd oj (hi j hlt)
  · rfl
  · rcases hj with ⟨hc, -⟩ | ⟨-, hj⟩
    · rcases hi with ⟨-, hi⟩ | ⟨hlt', -⟩
      · exact absurd oj (hi j hc hlt)
      · omega
    · exact absurd oi (hj i hlt)

theorem findNear?_eq_none_iff {needle t : Text} (hn : needle ≠ []) {column : ℕ} :
    findNear? needle column t = none ↔ ∀ i, ¬OccursAt needle t i := by
  simp only [findNear?, Option.or_eq_none_iff, Option.map_eq_none_iff, find?_eq_none_iff,
    findLast?_eq_none_iff, occursAt_drop hn]
  exact ⟨fun h => h.2, fun h => ⟨fun i => h _, h⟩⟩

theorem findNear?_eq_some_iff {needle t : Text} (hn : needle ≠ []) {column i : ℕ} :
    findNear? needle column t = some i ↔ IsNearest needle t column i := by
  have hfound : ∀ i, findNear? needle column t = some i → IsNearest needle t column i := by
    intro i h
    rw [findNear?] at h
    cases hf : find? needle (t.drop column) with
    | some k =>
      simp only [hf, Option.map_some, Option.some_or, Option.some.injEq] at h
      subst h
      obtain ⟨hk, hlt⟩ := find?_eq_some_iff.mp hf
      refine ⟨(occursAt_drop hn).mp hk, .inl ⟨by omega, fun j hj hjk => ?_⟩⟩
      obtain ⟨m, rfl⟩ : ∃ m, j = column + m := ⟨j - column, by omega⟩
      rw [← occursAt_drop hn]
      exact hlt m (by omega)
    | none =>
      simp only [hf, Option.map_none, Option.none_or] at h
      obtain ⟨hi, hlast⟩ := findLast?_eq_some_iff.mp h
      refine ⟨hi, .inr ⟨?_, hlast⟩⟩
      by_contra hc
      have hnone := find?_eq_none_iff.mp hf (i - column)
      rw [occursAt_drop hn, Nat.add_sub_cancel' (by omega)] at hnone
      exact hnone hi
  refine ⟨hfound i, fun h => ?_⟩
  cases hf : findNear? needle column t with
  | none => exact absurd h.1 ((findNear?_eq_none_iff hn).mp hf i)
  | some k => rw [(hfound k hf).unique h]

theorem OccursAt.exists_isNearest {needle t : Text} {i : ℕ} (h : OccursAt needle t i)
    (hn : needle ≠ []) (column : ℕ) : ∃ start, IsNearest needle t column start := by
  cases hf : findNear? needle column t with
  | none => exact absurd h ((findNear?_eq_none_iff hn).mp hf i)
  | some start => exact ⟨start, (findNear?_eq_some_iff hn).mp hf⟩

/-- A needle that stands where a shorter one is found is found there too. -/
theorem findNear?_of_isPrefix {a b t : Text} (ha : a ≠ []) (hab : a <+: b) {column i : ℕ}
    (h : findNear? a column t = some i) (hb : OccursAt b t i) :
    findNear? b column t = some i := by
  have hb' : b ≠ [] := fun hnil => ha (List.eq_nil_of_prefix_nil (hnil ▸ hab))
  rw [findNear?_eq_some_iff ha] at h
  rw [findNear?_eq_some_iff hb']
  refine ⟨hb, h.2.imp ?_ ?_⟩
  · exact fun ⟨hc, hlt⟩ => ⟨hc, fun j hj hji hbj => hlt j hj hji (hbj.of_isPrefix hab)⟩
  · exact fun ⟨hc, hgt⟩ => ⟨hc, fun j hj hbj => hgt j hj (hbj.of_isPrefix hab)⟩

theorem findNear?_eq_none_of_isPrefix {a b t : Text} (ha : a ≠ []) (hab : a <+: b) {column : ℕ}
    (h : findNear? a column t = none) : findNear? b column t = none := by
  have hb : b ≠ [] := fun hnil => ha (List.eq_nil_of_prefix_nil (hnil ▸ hab))
  rw [findNear?_eq_none_iff ha] at h
  rw [findNear?_eq_none_iff hb]
  exact fun i hi => h i (hi.of_isPrefix hab)

theorem OccursAt.getElem? {needle t : Text} {i : ℕ} (h : OccursAt needle t i) (hn : needle ≠ []) :
    t[i]? = needle.head? := by
  obtain ⟨-, rest, hrest⟩ := h
  rw [← List.head?_drop, ← hrest, List.head?_append_of_ne_nil _ hn]

theorem length_overwrite {t : Text} (new : Text) {start length : ℕ}
    (h : start + length ≤ t.length) :
    (overwrite t start length new).length + length = t.length + new.length := by
  simp only [overwrite, List.length_append, List.length_take, List.length_drop]
  omega

theorem getElem?_overwrite_lt {t new : Text} {start length i : ℕ} (hs : start ≤ t.length)
    (h : i < start) : (overwrite t start length new)[i]? = t[i]? := by
  rw [overwrite, List.append_assoc, List.getElem?_append_left (by simp; omega),
    List.getElem?_take_of_lt h]

theorem getElem?_overwrite_self {t new : Text} {start length : ℕ} (hs : start ≤ t.length)
    (hn : new ≠ []) : (overwrite t start length new)[start]? = new.head? := by
  have hlen : (t.take start).length = start := by simp [hs]
  rw [overwrite, List.append_assoc, List.getElem?_append_right (by omega), hlen, Nat.sub_self,
    ← List.head?_eq_getElem?, List.head?_append_of_ne_nil _ hn]

/-- Rewriting different occurrences gives different texts, if the new text starts differently. -/
theorem overwrite_inj {needle new t : Text} {i j : ℕ} (hn : needle ≠ []) (hw : new ≠ [])
    (hne : needle.head? ≠ new.head?) (hi : OccursAt needle t i) (hj : OccursAt needle t j)
    (h : overwrite t i needle.length new = overwrite t j needle.length new) : i = j := by
  have key : ∀ {i j : ℕ}, OccursAt needle t i → OccursAt needle t j →
      overwrite t i needle.length new = overwrite t j needle.length new → ¬i < j := by
    intro i j hi hj h hlt
    have hat : (overwrite t i needle.length new)[i]? = (overwrite t j needle.length new)[i]? := by
      rw [h]
    rw [getElem?_overwrite_self hi.1 hw, getElem?_overwrite_lt hj.1 hlt, hi.getElem? hn] at hat
    exact hne hat.symm
  have := key hi hj h
  have := key hj hi h.symm
  omega

end Errata.Text
