import Errata.File.Encoding
import Mathlib.Data.List.Basic

/-!
# The order of texts is that of their bytes

UTF-8 keeps the order of characters: where two characters differ, the first byte in which they
differ is the smaller one for the smaller character. So texts compared by their characters are in
the same order as their bytes.
-/
namespace Errata.Text

def bytes (t : Text) : List UInt8 := t.flatMap String.utf8EncodeChar

theorem encode?_utf8 (t : Text) : Encoding.encode? .utf8 t = some (bytes t).toByteArray := rfl

theorem bytes_cons (c : Char) (t : Text) : bytes (c :: t) = String.utf8EncodeChar c ++ bytes t :=
  List.flatMap_cons

theorem ofNat_cons_lt_iff {m n : ℕ} (hm : m < 256) (hn : n < 256) (a b : List UInt8) :
    UInt8.ofNat m :: a < UInt8.ofNat n :: b ↔ m < n ∨ m = n ∧ a < b := by
  have heq : UInt8.ofNat m = UInt8.ofNat n ↔ m = n := by
    rw [← UInt8.toNat_inj, UInt8.toNat_ofNat_of_lt' hm, UInt8.toNat_ofNat_of_lt' hn]
  have hlt : UInt8.ofNat m < UInt8.ofNat n ↔ m < n := by
    rw [UInt8.lt_iff_toNat_lt, UInt8.toNat_ofNat_of_lt' hm, UInt8.toNat_ofNat_of_lt' hn]
  rw [List.cons_lt_cons_iff, hlt, heq]

theorem digits_of_lt {v : ℕ} (h : v < 0x110000) :
    v / 64 / 64 = v / 4096 ∧ v / 4096 / 64 = v / 262144 ∧ v / 262144 % 8 = v / 262144 := by
  refine ⟨Nat.div_div_eq_div_mul .., Nat.div_div_eq_div_mul .., Nat.mod_eq_of_lt ?_⟩
  omega

/-- Whatever follows them, the bytes of two characters are in the order of the characters. -/
theorem utf8EncodeChar_append_lt {c d : Char} (h : c < d) (a b : List UInt8) :
    String.utf8EncodeChar c ++ a < String.utf8EncodeChar d ++ b := by
  have hlt : c.val.toNat < d.val.toNat := h
  have hd : d.val.toNat < 0x110000 := by
    rcases d.valid with hd | hd <;> omega
  have hcs := digits_of_lt (Nat.lt_trans hlt hd)
  have hds := digits_of_lt hd
  -- one to four bytes for each of them, no fewer for the greater one
  simp only [String.utf8EncodeChar]
  split_ifs <;> simp only [List.cons_append, List.nil_append] <;>
    (repeat rw [ofNat_cons_lt_iff (by omega) (by omega)]) <;> omega

theorem bytes_lt_of_lt {s t : Text} (h : s < t) : bytes s < bytes t := by
  induction s generalizing t with
  | nil =>
    cases t with
    | nil => exact absurd h (List.lt_irrefl _)
    | cons d t =>
      rw [bytes_cons]
      obtain ⟨b, bs, hbytes⟩ := List.exists_cons_of_length_pos
        (l := String.utf8EncodeChar d) (by simpa using d.utf8Size_pos)
      rw [hbytes]
      exact List.nil_lt_cons b _
  | cons c s ih =>
    cases t with
    | nil => exact absurd h (List.not_lt_nil _)
    | cons d t =>
      rw [bytes_cons, bytes_cons]
      rcases List.cons_lt_cons_iff.mp h with hlt | ⟨rfl, hlt⟩
      · exact utf8EncodeChar_append_lt hlt _ _
      · exact List.append_left_lt (ih hlt)

end Errata.Text
