import Errata.Json.Reader
import Errata.Json.Writer
import Errata.Proofs.Text.Digits

/-!
# Numbers in JSON

A number is written as digits without a zero in front, perhaps a fraction, and perhaps an exponent
with its sign. It is read as far as that goes, and what it is worth depends on these three parts
alone. Every finite double is written so.
-/
namespace Errata.Decimal

theorem timesPower_pos {n b : ℕ} (hn : 0 < n) (hb : 0 < b) (e : ℤ) : 0 < timesPower n b e :=
  Nat.mul_pos hn (Nat.pow_pos hb)

theorem compareScaled_zero {m : ℕ} (h : 0 < m) (k q : ℤ) : compareScaled 0 k m q = .lt := by
  have hzero : timesPower (timesPower 0 10 k) 2 (-q) = 0 := by simp [timesPower]
  rw [compareScaled, hzero]
  exact Nat.compare_eq_lt.mpr
    (timesPower_pos (timesPower_pos h (by decide) _) (by decide) _)

namespace Binary

variable {b : Binary}

theorem covers_zero (h : 0 < b.mantissa) (k : ℤ) : b.covers 0 k = false := by
  have hlow : 0 < 4 * b.mantissa - if b.narrow then 1 else 2 := by
    split <;> omega
  simp only [covers, compareScaled_zero hlow]
  split <;> rfl

theorem covers_of_onGrid? {g : ℤ} {d : ℕ} (h : b.onGrid? g = some d) : b.covers d g := by
  unfold onGrid? at h
  simp only at h
  split at h
  · cases h
  · next hd _ =>
    obtain rfl := Option.some.inj h
    exact hd
  · next hd =>
    obtain rfl := Option.some.inj h
    exact hd
  · next hd hd' =>
    split at h
    · obtain rfl := Option.some.inj h
      exact hd
    · obtain rfl := Option.some.inj h
      exact hd'
    · obtain rfl := Option.some.inj h
      split
      · exact hd
      · exact hd'

theorem mantissa_pos_of_bits {bits : UInt64} (h : bits &&& 0x7FFFFFFFFFFFFFFF ≠ 0) :
    0 < (ofBits bits).mantissa := by
  have hbits : bits.toNat % 2 ^ 63 ≠ 0 := by
    intro hzero
    refine h (UInt64.toNat_inj.mp ?_)
    rw [UInt64.toNat_and]
    exact (Nat.and_two_pow_sub_one_eq_mod _ 63).trans hzero
  unfold ofBits
  simp only
  split
  · simp only
    omega
  · simp

end Binary

theorem Digits.strip_ne_zero {x : Digits} (h : x.digits ≠ 0) (fuel : ℕ) :
    (x.strip fuel).digits ≠ 0 := by
  induction fuel generalizing x with
  | zero => exact h
  | succ fuel ih =>
    rw [strip]
    split
    · refine ih ?_
      simp only
      omega
    · exact h

theorem shortest_ne_zero {b : Binary} (h : 0 < b.mantissa) : (shortest b).digits ≠ 0 := by
  refine Digits.strip_ne_zero ?_ 20
  cases hfound : (List.range 17).findSome? fun i =>
      (b.onGrid? (b.scale - (Int.ofNat i + 1))).map fun d =>
        (⟨d, b.scale - (Int.ofNat i + 1)⟩ : Digits) with
  | none =>
    exact (timesPower_pos (timesPower_pos h (by decide) _) (by decide) _).ne'
  | some x =>
    obtain ⟨i, -, hi⟩ := List.exists_of_findSome?_eq_some hfound
    obtain ⟨d, hd, rfl⟩ := Option.map_eq_some_iff.mp hi
    rintro rfl
    have hcovers := Binary.covers_of_onGrid? hd
    rw [Binary.covers_zero h] at hcovers
    cases hcovers

end Errata.Decimal

namespace Errata.Json

open Text

/-- A number without its sign. An exponent is its sign and its digits. -/
structure Numeral where
  whole : Text
  fraction : Option Text
  exponent : Option (Bool × Text)

namespace Numeral

def fractionText (m : Numeral) : Text := m.fraction.elim [] ('.' :: ·)

def exponentText (m : Numeral) : Text :=
  m.exponent.elim [] fun e => 'e' :: (if e.1 then '-' else '+') :: e.2

def text (m : Numeral) : Text := m.whole ++ (m.fractionText ++ m.exponentText)

def exponentValue (m : Numeral) : Option ℤ :=
  m.exponent.map fun e =>
    if e.1 then -Int.ofNat (digitsValue e.2) else Int.ofNat (digitsValue e.2)

structure IsProper (m : Numeral) : Prop where
  whole : IsNumeral m.whole
  /-- There is no zero in front. -/
  lead : ∀ r, m.whole = '0' :: r → r = []
  fraction : ∀ f ∈ m.fraction, IsNumeral f
  exponent : ∀ e ∈ m.exponent, IsNumeral e.2

def value? (m : Numeral) (negative : Bool) : Option Number :=
  Number.ofParts? negative m.whole m.fraction m.exponentValue

def ofNat (n : ℕ) : Numeral := ⟨Text.ofNat n, none, none⟩

theorem text_ofNat (n : ℕ) : (ofNat n).text = Text.ofNat n := by
  simp [text, ofNat, fractionText, exponentText]

theorem isProper_ofNat (n : ℕ) : (ofNat n).IsProper where
  whole := isNumeral_ofNat n
  lead _ h := eq_nil_of_ofNat h
  fraction := by simp [ofNat]
  exponent := by simp [ofNat]

theorem value?_ofNat {n : ℕ} (h : n < UInt64.size) :
    (ofNat n).value? false = some (.natural n) := by
  simp [value?, ofNat, exponentValue, Number.ofParts?, digitsValue_ofNat, h]

theorem value?_neg_ofNat {n : ℕ} (hpos : n ≠ 0) (h : n ≤ 0x8000000000000000) :
    (ofNat n).value? true = some (.negative n) := by
  simp [value?, ofNat, exponentValue, Number.ofParts?, digitsValue_ofNat, hpos, Nat.not_lt.mpr h]

end Numeral

/-- What follows a number does not go on with it. -/
def EndsNumber (t : Text) : Prop :=
  ∀ c ∈ t.head?, c.isDigit = false ∧ c ≠ '.' ∧ c ≠ 'e' ∧ c ≠ 'E'

theorem endsNumber_nil : EndsNumber [] := by simp [EndsNumber]

theorem endsNumber_cons {c : Char} {t : Text} :
    EndsNumber (c :: t) ↔ c.isDigit = false ∧ c ≠ '.' ∧ c ≠ 'e' ∧ c ≠ 'E' := by
  simp [EndsNumber]

theorem EndsNumber.endsDigits {t : Text} (h : EndsNumber t) : EndsDigits t :=
  fun c hc => (h c hc).1

theorem digits_append {s r : Text} (hs : ∀ c ∈ s, c.isDigit) (hr : EndsDigits r) :
    ∃ h, digits (s ++ r) = (s, ⟨r, h⟩) := by
  refine ⟨by simp, Prod.ext (takeWhile_isDigit_append hs hr) (Subtype.ext ?_)⟩
  exact dropWhile_isDigit_append hs hr

theorem exponentPart_append {m : Numeral} (hm : m.IsProper) {rest : Text}
    (hrest : EndsNumber rest) :
    ∃ h, exponentPart (m.exponentText ++ rest) = some (m.exponentValue, ⟨rest, h⟩) := by
  obtain ⟨whole, fraction, exponent⟩ := m
  cases exponent with
  | none =>
    simp only [Numeral.exponentText, Numeral.exponentValue, Option.elim_none, List.nil_append,
      Option.map_none]
    unfold exponentPart
    split
    · exact absurd rfl (endsNumber_cons.mp hrest).2.2.1
    · exact absurd rfl (endsNumber_cons.mp hrest).2.2.2
    · exact ⟨Nat.le_refl _, rfl⟩
  | some e =>
    obtain ⟨negative, ds⟩ := e
    have hds : IsNumeral ds := hm.exponent (negative, ds) rfl
    obtain ⟨hle, hdigits⟩ := digits_append hds.digits hrest.endsDigits
    obtain ⟨d, ds, rfl⟩ := List.exists_cons_of_ne_nil hds.ne_nil
    have hlength : ∀ sign : Char, rest.length ≤ ('e' :: sign :: d :: (ds ++ rest)).length := by
      intro sign
      simp only [List.length_cons, List.length_append]
      omega
    cases negative with
    | false =>
      simp only [exponentPart, Numeral.exponentText, Option.elim_some, List.cons_append]
      split
      · next heq => cases hdigits.symm.trans heq
      · next heq =>
        cases hdigits.symm.trans heq
        exact ⟨hlength _, rfl⟩
    | true =>
      simp only [exponentPart, Numeral.exponentText, Option.elim_some, List.cons_append]
      split
      · next heq => cases hdigits.symm.trans heq
      · next heq =>
        cases hdigits.symm.trans heq
        exact ⟨hlength _, rfl⟩

theorem endsDigits_exponentText {m : Numeral} {rest : Text} (hrest : EndsNumber rest) :
    EndsDigits (m.exponentText ++ rest) := by
  obtain ⟨whole, fraction, exponent⟩ := m
  cases exponent with
  | none => exact hrest.endsDigits
  | some e => exact endsDigits_cons.mpr rfl

theorem fractionPart_of_ne {s : Text} (h : ∀ r, s ≠ '.' :: r) :
    ∃ h, fractionPart s = some (none, ⟨s, h⟩) := by
  unfold fractionPart
  split
  · next r => exact absurd rfl (h r)
  · exact ⟨Nat.le_refl _, rfl⟩

theorem fractionPart_append {m : Numeral} (hm : m.IsProper) {rest : Text}
    (hrest : EndsNumber rest) :
    ∃ h, fractionPart (m.fractionText ++ (m.exponentText ++ rest)) =
      some (m.fraction, ⟨m.exponentText ++ rest, h⟩) := by
  have hends := endsDigits_exponentText (m := m) hrest
  obtain ⟨whole, fraction, exponent⟩ := m
  cases fraction with
  | none =>
    have hpoint : ∀ r, Numeral.exponentText ⟨whole, none, exponent⟩ ++ rest ≠ '.' :: r := by
      intro r heq
      cases exponent with
      | none =>
        obtain rfl : rest = '.' :: r := heq
        exact (endsNumber_cons.mp hrest).2.1 rfl
      | some e => cases heq
    exact fractionPart_of_ne hpoint
  | some ds =>
    have hds : IsNumeral ds := hm.fraction ds rfl
    obtain ⟨hle, hdigits⟩ := digits_append hds.digits hends
    obtain ⟨d, ds, rfl⟩ := List.exists_cons_of_ne_nil hds.ne_nil
    refine ⟨Nat.le_succ_of_le hle, ?_⟩
    simp only [fractionPart, Numeral.fractionText, Option.elim_some, List.cons_append]
    split
    · next heq => cases hdigits.symm.trans heq
    · next heq =>
      cases hdigits.symm.trans heq
      rfl

theorem numberBody_append (negative : Bool) {m : Numeral} (hm : m.IsProper) {rest : Text}
    (hrest : EndsNumber rest) :
    ∃ h, numberBody negative (m.text ++ rest) =
      some ((m.value? negative).elim .unfit .number, ⟨rest, h⟩) := by
  have hends : EndsDigits (m.fractionText ++ (m.exponentText ++ rest)) := by
    cases hfraction : m.fraction with
    | none => simpa [Numeral.fractionText, hfraction] using endsDigits_exponentText hrest
    | some f =>
      simp only [Numeral.fractionText, hfraction, Option.elim_some, List.cons_append]
      exact endsDigits_cons.mpr rfl
  obtain ⟨hfractionLe, hfraction⟩ := fractionPart_append hm hrest
  obtain ⟨hexponentLe, hexponent⟩ := exponentPart_append hm hrest
  obtain ⟨d, ds, hwhole⟩ := List.exists_cons_of_ne_nil hm.whole.ne_nil
  have hlead : ¬(d = '0' ∧ ds ≠ []) := by
    rintro ⟨rfl, hne⟩
    exact hne (hm.lead ds hwhole)
  have htext : m.text ++ rest = m.whole ++ (m.fractionText ++ (m.exponentText ++ rest)) := by
    simp [Numeral.text]
  obtain ⟨hdigitsLe, hdigits⟩ : ∃ h, digits (m.text ++ rest) =
      (d :: ds, ⟨m.fractionText ++ (m.exponentText ++ rest), h⟩) := by
    rw [htext, ← hwhole]
    exact digits_append hm.whole.digits hends
  have hlength : rest.length < (m.text ++ rest).length := by
    simp [Numeral.text, hwhole]
    omega
  refine ⟨hlength, ?_⟩
  unfold numberBody
  split
  · next heq => cases hdigits.symm.trans heq
  · next heq =>
    cases hdigits.symm.trans heq
    rw [if_neg hlead, hfraction]
    simp only [Option.bind_eq_bind, Option.bind_some, hexponent]
    rw [Numeral.value?, hwhole]

/-- The layout of a decimal that is not zero is a number of the grammar. -/
theorem exists_numeral_layout {x : Decimal.Digits} (h : x.digits ≠ 0) :
    ∃ m : Numeral, m.IsProper ∧ layout x = m.text := by
  have hnumeral := isNumeral_ofNat x.digits
  obtain ⟨d, ds, hds⟩ := List.exists_cons_of_ne_nil hnumeral.ne_nil
  have hlead : d ≠ '0' := by
    rintro rfl
    obtain rfl := eq_nil_of_ofNat hds
    have hvalue := digitsValue_ofNat x.digits
    rw [hds] at hvalue
    exact h hvalue.symm
  have hfirst : ∀ t r, d :: t = '0' :: r → r = [] := by
    intro t r heq
    exact absurd (List.cons.inj heq).1 hlead
  have hzeros : ∀ n, ∀ c ∈ List.replicate n '0', c.isDigit := fun _ _ => isDigit_of_mem_zeros
  have hone : IsNumeral [d] := hnumeral.sublist (by simp [hds]) (by simp)
  unfold layout
  simp only
  generalize hexponent : x.exponent + (Text.ofNat x.digits).length - 1 = exponent
  split
  · -- One digit before the point, and an exponent.
    have hpower : ∀ e ∈ some (decide (exponent < 0), Text.ofNat exponent.natAbs), IsNumeral e.2 := by
      rintro e ⟨rfl⟩
      exact isNumeral_ofNat _
    rw [hds]
    cases ds with
    | nil =>
      exact ⟨⟨[d], none, some (exponent < 0, Text.ofNat exponent.natAbs)⟩,
        ⟨hone, hfirst _, by simp, hpower⟩,
        by simp [Numeral.text, Numeral.fractionText, Numeral.exponentText]⟩
    | cons e r =>
      have hrest : IsNumeral (e :: r) := hnumeral.sublist (by simp [hds]) (by simp)
      exact ⟨⟨[d], some (e :: r), some (exponent < 0, Text.ofNat exponent.natAbs)⟩,
        ⟨hone, hfirst _, by simpa using hrest, hpower⟩,
        by simp [Numeral.text, Numeral.fractionText, Numeral.exponentText]⟩
  · split
    · -- A fraction below one.
      refine ⟨⟨['0'], some (List.replicate (-exponent - 1).toNat '0' ++ Text.ofNat x.digits), none⟩,
        ⟨isNumeral_zero, by simp, ?_, by simp⟩,
        by simp [Numeral.text, Numeral.fractionText, Numeral.exponentText]⟩
      rintro f ⟨rfl⟩
      exact hnumeral.append_right (hzeros _)
    · split
      · -- A whole number.
        refine ⟨⟨Text.ofNat x.digits ++ List.replicate x.exponent.toNat '0', some ['0'], none⟩,
          ⟨hnumeral.append_left (hzeros _), ?_, ?_, by simp⟩,
          by simp [Numeral.text, Numeral.fractionText, Numeral.exponentText]⟩
        · rw [hds]
          exact hfirst _
        · rintro f ⟨rfl⟩
          exact isNumeral_zero
      · -- The point stands among the digits.
        have hlength : 0 < (exponent + 1).toNat ∧
            (exponent + 1).toNat < (Text.ofNat x.digits).length := by omega
        refine ⟨⟨(Text.ofNat x.digits).take (exponent + 1).toNat,
            some ((Text.ofNat x.digits).drop (exponent + 1).toNat), none⟩,
          ⟨hnumeral.sublist (List.take_sublist ..) ?_, ?_, ?_, by simp⟩,
          by simp [Numeral.text, Numeral.fractionText, Numeral.exponentText]⟩
        · rw [← List.length_pos_iff, List.length_take]
          omega
        · obtain ⟨n, hn⟩ := Nat.exists_eq_succ_of_ne_zero hlength.1.ne'
          rw [hds, hn, List.take_succ_cons]
          exact hfirst _
        · rintro f ⟨rfl⟩
          refine hnumeral.sublist (List.drop_sublist ..) ?_
          rw [← List.length_pos_iff, List.length_drop]
          omega

theorem exists_numeral_doubleText {x : Float} (h : x.isFinite) :
    ∃ (negative : Bool) (m : Numeral), m.IsProper ∧
      doubleText x = (if negative then ['-'] else []) ++ m.text := by
  have hsign : ∃ negative : Bool, (if x.toBits < 0x8000000000000000 then [] else ['-']) =
      if negative then ['-'] else ([] : Text) := by
    refine ⟨!decide (x.toBits < 0x8000000000000000), ?_⟩
    by_cases hlow : x.toBits < 0x8000000000000000 <;> simp [hlow]
  obtain ⟨negative, hsign⟩ := hsign
  refine ⟨negative, ?_⟩
  unfold doubleText
  simp only [h, hsign, Bool.not_true, Bool.false_eq_true, if_false]
  split
  · refine ⟨⟨['0'], some ['0'], none⟩, ⟨isNumeral_zero, by simp, ?_, by simp⟩, rfl⟩
    rintro f ⟨rfl⟩
    exact isNumeral_zero
  · next hnonzero =>
    obtain ⟨m, hm, htext⟩ := exists_numeral_layout
      (Decimal.shortest_ne_zero (Decimal.Binary.mantissa_pos_of_bits hnonzero))
    exact ⟨m, hm, by rw [htext]⟩

end Errata.Json
