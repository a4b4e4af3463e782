import Errata.Proofs.Text.ByteOrder

/-!
# Well-formed UTF-8

The byte sequences of UTF-8 by the ranges that their bytes lie in: no character is written longer
than it has to be, surrogates and what lies beyond the last character are left out, and no sequence
ends early. They are the bytes of texts, and no others.
-/
namespace Errata.Utf8

def IsTail (b : UInt8) : Prop := 0x80 ≤ b.toNat ∧ b.toNat ≤ 0xBF

inductive IsCharacter : List UInt8 → Prop
  | one {a : UInt8} (ha : a.toNat ≤ 0x7F) : IsCharacter [a]
  | two {a b : UInt8} (ha : 0xC2 ≤ a.toNat ∧ a.toNat ≤ 0xDF) (hb : IsTail b) : IsCharacter [a, b]
  | three {a b c : UInt8} (ha : 0xE0 ≤ a.toNat ∧ a.toNat ≤ 0xEF) (hb : IsTail b) (hc : IsTail c)
      (hlow : a.toNat = 0xE0 → 0xA0 ≤ b.toNat) (hsurrogate : a.toNat = 0xED → b.toNat ≤ 0x9F) :
      IsCharacter [a, b, c]
  | four {a b c d : UInt8} (ha : 0xF0 ≤ a.toNat ∧ a.toNat ≤ 0xF4) (hb : IsTail b) (hc : IsTail c)
      (hd : IsTail d) (hlow : a.toNat = 0xF0 → 0x90 ≤ b.toNat)
      (hhigh : a.toNat = 0xF4 → b.toNat ≤ 0x8F) : IsCharacter [a, b, c, d]

inductive WellFormed : List UInt8 → Prop
  | nil : WellFormed []
  | append {bs rest : List UInt8} (h : IsCharacter bs) (hrest : WellFormed rest) :
      WellFormed (bs ++ rest)

theorem toNat_ofNat {n : ℕ} (h : n < 256) : (UInt8.ofNat n).toNat = n :=
  UInt8.toNat_ofNat_of_lt' h

theorem isTail_ofNat (n : ℕ) : IsTail (UInt8.ofNat (n % 0x40 + 0x80)) := by
  unfold IsTail
  rw [toNat_ofNat (by omega)]
  omega

theorem isCharacter_utf8EncodeChar (c : Char) : IsCharacter (String.utf8EncodeChar c) := by
  have hvalid : c.val.toNat < 0xD800 ∨ 0xDFFF < c.val.toNat ∧ c.val.toNat < 0x110000 := c.valid
  simp only [String.utf8EncodeChar]
  split_ifs
  · refine .one ?_
    rw [toNat_ofNat (by omega)]
    assumption
  · refine .two ?_ (isTail_ofNat _)
    rw [toNat_ofNat (by omega)]
    omega
  -- the character is no shorter one, and no surrogate
  · refine .three ?_ (isTail_ofNat _) (isTail_ofNat _) ?_ ?_ <;> rw [toNat_ofNat (by omega)]
    · omega
    · rw [toNat_ofNat (by omega)]
      omega
    · rw [toNat_ofNat (by omega)]
      omega
  -- the character is no shorter one, and not beyond the last
  · refine .four ?_ (isTail_ofNat _) (isTail_ofNat _) (isTail_ofNat _) ?_ ?_ <;>
      rw [toNat_ofNat (by omega)]
    · omega
    · rw [toNat_ofNat (by omega)]
      omega
    · rw [toNat_ofNat (by omega)]
      omega

theorem ofNat_eq {b : UInt8} {n : ℕ} (h : n = b.toNat) : UInt8.ofNat n = b := by
  rw [h, UInt8.ofNat_toNat]

theorem toNat_charOfNat {n : ℕ} (h : n.isValidChar) : (Char.ofNat n).toNat = n := by
  rw [Char.ofNat, dif_pos h]
  rfl

theorem exists_char {n : ℕ} (h : n.isValidChar) : ∃ c : Char, c.val.toNat = n :=
  ⟨Char.ofNat n, toNat_charOfNat h⟩

theorem exists_utf8EncodeChar {bs : List UInt8} (h : IsCharacter bs) :
    ∃ c, String.utf8EncodeChar c = bs := by
  unfold String.utf8EncodeChar
  cases h with
  | @one a ha =>
    obtain ⟨c, hc⟩ := exists_char (n := a.toNat) (by unfold Nat.isValidChar; omega)
    refine ⟨c, ?_⟩
    rw [hc, if_pos ha, UInt8.ofNat_toNat]
  | @two a b ha hb =>
    unfold IsTail at hb
    obtain ⟨c, hc⟩ := exists_char (n := (a.toNat - 0xC0) * 0x40 + (b.toNat - 0x80))
      (by unfold Nat.isValidChar; omega)
    refine ⟨c, ?_⟩
    rw [hc, if_neg (by omega), if_pos (by omega)]
    simp only [List.cons.injEq, and_true]
    exact ⟨ofNat_eq (by omega), ofNat_eq (by omega)⟩
  | @three a b c ha hb hc hlow hsurrogate =>
    unfold IsTail at hb hc
    obtain ⟨x, hx⟩ := exists_char
      (n := (a.toNat - 0xE0) * 0x1000 + (b.toNat - 0x80) * 0x40 + (c.toNat - 0x80))
      (by unfold Nat.isValidChar; omega)
    refine ⟨x, ?_⟩
    rw [hx, if_neg (by omega), if_neg (by omega), if_pos (by omega)]
    simp only [List.cons.injEq, and_true]
    exact ⟨ofNat_eq (by omega), ofNat_eq (by omega), ofNat_eq (by omega)⟩
  | @four a b c d ha hb hc hd hlow hhigh =>
    unfold IsTail at hb hc hd
    obtain ⟨x, hx⟩ := exists_char
      (n := (a.toNat - 0xF0) * 0x40000 + (b.toNat - 0x80) * 0x1000 + (c.toNat - 0x80) * 0x40 +
        (d.toNat - 0x80))
      (by unfold Nat.isValidChar; omega)
    refine ⟨x, ?_⟩
    rw [hx, if_neg (by omega), if_neg (by omega), if_neg (by omega)]
    simp only [List.cons.injEq, and_true]
    exact ⟨ofNat_eq (by omega), ofNat_eq (by omega), ofNat_eq (by omega), ofNat_eq (by omega)⟩

theorem wellFormed_bytes (t : Text) : WellFormed (Text.bytes t) := by
  induction t with
  | nil => exact .nil
  | cons c t ih =>
    rw [Text.bytes_cons]
    exact .append (isCharacter_utf8EncodeChar c) ih

/-- What is well-formed are the bytes of texts. -/
theorem wellFormed_iff {bs : List UInt8} : WellFormed bs ↔ ∃ t, Text.bytes t = bs := by
  constructor
  · intro h
    induction h with
    | nil => exact ⟨[], rfl⟩
    | append hchar _ ih =>
      obtain ⟨c, rfl⟩ := exists_utf8EncodeChar hchar
      obtain ⟨t, rfl⟩ := ih
      exact ⟨c :: t, Text.bytes_cons c t⟩
  · rintro ⟨t, rfl⟩
    exact wellFormed_bytes t

end Errata.Utf8
