import Errata.Text.Basic
import Mathlib.Data.List.TakeWhile
import Mathlib.Data.Nat.Digits.Defs

/-!
# Numbers in digits

A number is written in digits without a zero in front, and its digits have it as their value. The
run of digits at the start of a text ends where the digits of the number do, unless another digit
follows.
-/
namespace Errata.Text

/-- Some digits, and at least one. -/
structure IsNumeral (t : Text) : Prop where
  ne_nil : t ≠ []
  digits : ∀ c ∈ t, c.isDigit

namespace IsNumeral

variable {s t : Text}

theorem sublist (h : IsNumeral t) (hs : s.Sublist t) (hne : s ≠ []) : IsNumeral s :=
  ⟨hne, fun c hc => h.digits c (hs.mem hc)⟩

theorem append_left (h : IsNumeral s) (ht : ∀ c ∈ t, c.isDigit) : IsNumeral (s ++ t) where
  ne_nil := List.append_ne_nil_of_left_ne_nil h.ne_nil _
  digits c hc := (List.mem_append.mp hc).elim (h.digits c) (ht c)

theorem append_right (h : IsNumeral t) (hs : ∀ c ∈ s, c.isDigit) : IsNumeral (s ++ t) where
  ne_nil := List.append_ne_nil_of_right_ne_nil _ h.ne_nil
  digits c hc := (List.mem_append.mp hc).elim (hs c) (h.digits c)

end IsNumeral

theorem isDigit_of_mem_zeros {n : ℕ} {c : Char} (h : c ∈ List.replicate n '0') : c.isDigit := by
  obtain rfl := List.eq_of_mem_replicate h
  rfl

/-- What follows the digits of a number does not begin with a digit. -/
def EndsDigits (t : Text) : Prop := ∀ c ∈ t.head?, c.isDigit = false

theorem endsDigits_cons {c : Char} {t : Text} : EndsDigits (c :: t) ↔ c.isDigit = false := by
  simp [EndsDigits]

theorem EndsDigits.takeWhile {t : Text} (h : EndsDigits t) : t.takeWhile Char.isDigit = [] := by
  cases t with
  | nil => rfl
  | cons c t => simp [endsDigits_cons.mp h]

theorem EndsDigits.dropWhile {t : Text} (h : EndsDigits t) : t.dropWhile Char.isDigit = t := by
  cases t with
  | nil => rfl
  | cons c t => simp [endsDigits_cons.mp h]

theorem takeWhile_isDigit_append {s t : Text} (hs : ∀ c ∈ s, c.isDigit) (ht : EndsDigits t) :
    (s ++ t).takeWhile Char.isDigit = s := by
  rw [List.takeWhile_append_of_pos hs, ht.takeWhile, List.append_nil]

theorem dropWhile_isDigit_append {s t : Text} (hs : ∀ c ∈ s, c.isDigit) (ht : EndsDigits t) :
    (s ++ t).dropWhile Char.isDigit = t := by
  rw [List.dropWhile_append_of_pos hs, ht.dropWhile]

theorem isNumeral_ofNat (n : ℕ) : IsNumeral (ofNat n) where
  ne_nil := Nat.toDigits_ne_nil
  digits _ hc := Nat.isDigit_of_mem_toDigits (by decide) (by decide) hc

theorem isNumeral_zero : IsNumeral ['0'] := isNumeral_ofNat 0

theorem eq_nil_of_ofNat {n : ℕ} {r : Text} (h : ofNat n = '0' :: r) : r = [] := by
  induction n using Nat.strongRecOn generalizing r with
  | ind n ih =>
    unfold ofNat at h
    rw [Nat.toDigits_eq_if (by decide)] at h
    split at h
    · exact (List.cons.inj h).2.symm
    · next hn =>
      obtain ⟨d, ds, hds⟩ := List.exists_cons_of_ne_nil (Nat.toDigits_ne_nil (n := n / 10) (b := 10))
      rw [hds, List.cons_append] at h
      obtain ⟨rfl, -⟩ := List.cons.inj h
      obtain rfl := ih (n / 10) (by omega) hds
      -- A quotient that is written as a single zero is zero, and the number has but one digit.
      have hzero : Nat.ofDigitChars 10 (Nat.toDigits 10 (n / 10)) 0 = 0 := by
        rw [hds]
        rfl
      rw [Nat.ofDigitChars_ten_toDigits] at hzero
      omega

theorem digitsValue_eq (t : Text) : digitsValue t = Nat.ofDigitChars 10 t 0 :=
  Nat.ofDigitChars_eq_foldl.symm

theorem digitsValue_ofNat (n : ℕ) : digitsValue (ofNat n) = n := by
  rw [digitsValue_eq, ofNat, Nat.ofDigitChars_ten_toDigits]

theorem digitsValue_append (s t : Text) :
    digitsValue (s ++ t) = 10 ^ t.length * digitsValue s + digitsValue t := by
  simp only [digitsValue_eq]
  rw [Nat.ofDigitChars_append, Nat.ofDigitChars_eq_ofDigitChars_zero]

theorem digitsValue_zeros (n : ℕ) : digitsValue (List.replicate n '0') = 0 := by
  rw [digitsValue_eq, Nat.ofDigitChars_replicate_zero, Nat.mul_zero]

theorem isNumeral_padded (width n : ℕ) : IsNumeral (padded width n) :=
  (isNumeral_ofNat n).append_right fun _ => isDigit_of_mem_zeros

theorem digitsValue_padded (width n : ℕ) : digitsValue (padded width n) = n := by
  rw [padded, digitsValue_append, digitsValue_zeros, digitsValue_ofNat, Nat.mul_zero, Nat.zero_add]

theorem length_padded {width n : ℕ} (hwidth : 0 < width) (h : n < 10 ^ width) :
    (padded width n).length = width := by
  have hlength : (ofNat n).length ≤ width :=
    (Nat.length_toDigits_le_iff (by decide) hwidth).mpr h
  simp only [padded, List.length_append, List.length_replicate]
  omega

end Errata.Text
