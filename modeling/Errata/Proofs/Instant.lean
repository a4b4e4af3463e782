import Errata.Instant
import Errata.Proofs.Text.Digits

/-!
# Instants are read as they are written

Every instant, leap seconds and years of any number of digits included, is read back from its text:
each field has its width, and what follows it does not begin with a digit.
-/
namespace Errata.Instant

open Calendar Text

theorem trimStart_cons {c : Char} (h : isBlank c = false) (r : Text) :
    trimStart (c :: r) = c :: r :=
  List.dropWhile_cons_of_neg (by simp [h])

theorem not_isBlank_of_isDigit {c : Char} (h : c.isDigit) : isBlank c = false := by
  obtain ⟨hlow, hhigh⟩ := Bool.and_eq_true_iff.mp h
  have hlow : 48 ≤ c.toNat := UInt32.le_iff_toNat_le.mp (of_decide_eq_true hlow)
  have hhigh : c.toNat ≤ 57 := UInt32.le_iff_toNat_le.mp (of_decide_eq_true hhigh)
  unfold isBlank
  grind

theorem trimStart_numeral {s r : Text} (hs : IsNumeral s) : trimStart (s ++ r) = s ++ r := by
  obtain ⟨c, s, rfl⟩ := List.exists_cons_of_ne_nil hs.ne_nil
  exact trimStart_cons (not_isBlank_of_isDigit (hs.digits c List.mem_cons_self)) (s ++ r)

theorem number?_append {width : ℕ} {s r : Text} (hs : IsNumeral s) (hwidth : s.length ≤ width)
    (hends : s.length = width ∨ EndsDigits r) :
    number? width (s ++ r) = some (digitsValue s, r) := by
  have htake : ((s ++ r).take width).takeWhile Char.isDigit = s := by
    rcases hends with rfl | hends
    · rw [List.take_left, List.takeWhile_eq_self_iff]
      exact hs.digits
    · rw [List.take_append, List.take_of_length_le hwidth]
      refine takeWhile_isDigit_append hs.digits ?_
      intro c hc
      rw [List.head?_take] at hc
      split at hc
      · cases hc
      · exact hends c hc
  obtain ⟨c, s, rfl⟩ := List.exists_cons_of_ne_nil hs.ne_nil
  rw [number?, htake]
  simp

theorem field?_padded {n : ℕ} (h : n < 100) (r : Text) :
    field? (padded 2 n ++ r) = some (n, r) := by
  have hlength : (padded 2 n).length = 2 := length_padded (by decide) h
  rw [field?, trimStart_numeral (isNumeral_padded 2 n),
    number?_append (isNumeral_padded 2 n) hlength.le (.inl hlength), digitsValue_padded]

theorem after?_cons {c : Char} (h : isBlank c = false) (r : Text) : after? c (c :: r) = some r := by
  simp [after?, trimStart_cons h]

theorem year?_yearText (year : ℤ) {r : Text} (h : EndsDigits r) :
    year? (yearText year ++ r) = some (year, r) := by
  have hnumeral := isNumeral_padded 4
  unfold yearText
  split
  · next hrange =>
    have hlength : (padded 4 year.toNat).length = 4 := length_padded (by decide) (by omega)
    have hread : number? 4 (padded 4 year.toNat ++ r) = some (year.toNat, r) := by
      rw [number?_append (hnumeral _) hlength.le (.inl hlength), digitsValue_padded]
    rw [year?, trimStart_numeral (hnumeral _)]
    obtain ⟨c, ds, hds⟩ := List.exists_cons_of_ne_nil (hnumeral year.toNat).ne_nil
    have hdigit : c.isDigit := (hnumeral year.toNat).digits c (by simp [hds])
    rw [hds, List.cons_append] at hread ⊢
    split
    · next heq =>
      obtain ⟨rfl, -⟩ := List.cons.inj heq
      cases hdigit
    · next heq =>
      obtain ⟨rfl, -⟩ := List.cons.inj heq
      cases hdigit
    · rw [hread]
      simp [Int.toNat_of_nonneg hrange.1]
  · have hread : number? (padded 4 year.natAbs ++ r).length (padded 4 year.natAbs ++ r) =
        some (year.natAbs, r) := by
      rw [number?_append (hnumeral _) (by simp) (.inr h), digitsValue_padded]
    by_cases hneg : year < 0
    · rw [if_pos hneg, List.cons_append, year?, trimStart_cons (by decide)]
      have habs : -Int.ofNat year.natAbs = year := by
        rw [Int.ofNat_eq_natCast]
        omega
      simp only [hread, Option.map_some, habs]
    · rw [if_neg hneg, List.cons_append, year?, trimStart_cons (by decide)]
      have habs : Int.ofNat year.natAbs = year := by
        rw [Int.ofNat_eq_natCast]
        omega
      simp only [hread, Option.map_some, habs]

theorem fraction?_fractionText {nano : ℕ} (h : nano < 1000000000) :
    fraction? (fractionText nano ++ ['Z']) = some (nano, ['Z']) := by
  have hread : ∀ {width n : ℕ}, 0 < width → width ≤ 9 → n < 10 ^ width →
      fraction? ('.' :: padded width n ++ ['Z']) = some (10 ^ (9 - width) * n, ['Z']) := by
    intro width n hpos hle hn
    have hlength := length_padded hpos hn
    have htake : (padded width n ++ ['Z']).takeWhile Char.isDigit = padded width n :=
      takeWhile_isDigit_append (isNumeral_padded width n).digits (endsDigits_cons.mpr rfl)
    have hvalue : digitsValue ((padded width n ++ List.replicate 9 '0').take 9) =
        10 ^ (9 - width) * n := by
      rw [List.take_append, List.take_of_length_le (by omega), List.take_replicate, hlength,
        Nat.min_eq_left (by omega), digitsValue_append, digitsValue_padded, digitsValue_zeros,
        List.length_replicate, Nat.add_zero]
    rw [List.cons_append, fraction?, htake]
    split
    · next hnil => exact absurd hnil (isNumeral_padded width n).ne_nil
    · rw [hvalue, List.drop_left]
  unfold fractionText
  split
  · next hzero =>
    rw [hzero]
    rfl
  · split
    · rw [hread (by decide) (by decide) (by omega)]
      congr
      omega
    · split
      · rw [hread (by decide) (by decide) (by omega)]
        congr
        omega
      · rw [hread (by decide) (by decide) (by omega)]
        simp

theorem ofLocal?_zero (t : Instant) :
    ofLocal? t.year t.month t.day t.hour t.minute t.second t.nano 0 = some t := by
  obtain ⟨hhour, hminute, hsecond, hnano⟩ := t.isTime
  have hminutes : Int.ofNat (60 * t.hour + t.minute) - 0 = (60 * t.hour + t.minute : ℕ) := by
    simp
  have hlow : ¬((60 * t.hour + t.minute : ℕ) : ℤ) < 0 := by omega
  have hhigh : ¬(1440 : ℤ) ≤ (60 * t.hour + t.minute : ℕ) := by omega
  unfold ofLocal?
  rw [if_pos t.isDate]
  simp only [hminutes, if_neg hlow, if_neg hhigh, Int.toNat_natCast]
  have hdiv : (60 * t.hour + t.minute) / 60 = t.hour := by omega
  have hmod : (60 * t.hour + t.minute) % 60 = t.minute := by omega
  simp only [hdiv, hmod]
  rw [dif_pos ⟨t.isDate, t.isTime⟩]

theorem read?_text (t : Instant) : read? t.text = some t := by
  obtain ⟨hhour, hminute, hsecond, hnano⟩ := t.isTime
  obtain ⟨-, -, -, hmonth, -, hday⟩ := t.isDate
  have hdays : daysIn t.year t.month ≤ 31 := by
    unfold daysIn
    grind
  have hdash : isBlank '-' = false := rfl
  have hcolon : isBlank ':' = false := rfl
  have hoffset : offset? (trimStart ['Z']) = some (0, []) := rfl
  unfold read? text
  simp only [List.append_assoc, List.cons_append, List.nil_append]
  refine Option.bind_eq_some_iff.mpr ⟨_, year?_yearText _ (endsDigits_cons.mpr rfl), ?_⟩
  refine Option.bind_eq_some_iff.mpr ⟨_, after?_cons hdash _, ?_⟩
  refine Option.bind_eq_some_iff.mpr ⟨_, field?_padded (by omega) _, ?_⟩
  refine Option.bind_eq_some_iff.mpr ⟨_, after?_cons hdash _, ?_⟩
  refine Option.bind_eq_some_iff.mpr ⟨_, field?_padded (by omega) _, ?_⟩
  refine Option.bind_eq_some_iff.mpr ⟨_, rfl, ?_⟩
  refine Option.bind_eq_some_iff.mpr ⟨_, field?_padded (by omega) _, ?_⟩
  refine Option.bind_eq_some_iff.mpr ⟨_, after?_cons hcolon _, ?_⟩
  refine Option.bind_eq_some_iff.mpr ⟨_, field?_padded (by omega) _, ?_⟩
  refine Option.bind_eq_some_iff.mpr ⟨_, after?_cons hcolon _, ?_⟩
  refine Option.bind_eq_some_iff.mpr ⟨_, field?_padded (by omega) _, ?_⟩
  refine Option.bind_eq_some_iff.mpr ⟨_, fraction?_fractionText hnano, ?_⟩
  refine Option.bind_eq_some_iff.mpr ⟨_, hoffset, ?_⟩
  rw [if_pos ⟨hhour, hminute, hsecond, rfl⟩]
  exact ofLocal?_zero t

end Errata.Instant
