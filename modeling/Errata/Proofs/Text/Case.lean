import Errata.Proofs.Text.Trim

/-!
# Texts in lower case

Lower case changes ASCII letters only. It keeps white space, and every character that is no small
letter comes from itself alone, so it goes together with trimming and with splitting at such a
character.
-/
namespace Errata.Text

theorem toNat_toLower (c : Char) :
    c.toLower.toNat = if 65 ≤ c.toNat ∧ c.toNat ≤ 90 then c.toNat + 32 else c.toNat := by
  unfold Char.toLower
  split
  · next h =>
    have hrange : 65 ≤ c.toNat ∧ c.toNat ≤ 90 := h
    rw [if_pos hrange]
    change (c.val + 32).toNat = c.val.toNat + 32
    have hlt : c.val.toNat ≤ 90 := hrange.2
    rw [UInt32.toNat_add]
    exact Nat.mod_eq_of_lt (by simp; omega)
  · next h =>
    have hrange : ¬(65 ≤ c.toNat ∧ c.toNat ≤ 90) := h
    rw [if_neg hrange]

theorem toLower_toLower (c : Char) : c.toLower.toLower = c.toLower := by
  have hsmall : ¬(65 ≤ c.toLower.toNat ∧ c.toLower.toNat ≤ 90) := by
    rw [toNat_toLower]
    split <;> omega
  rw [← Char.toNat_inj, toNat_toLower c.toLower, if_neg hsmall]

theorem isBlank_toLower (c : Char) : isBlank c.toLower = isBlank c := by
  rw [Bool.eq_iff_iff]
  unfold isBlank
  simp only [toNat_toLower, Bool.or_eq_true, Bool.and_eq_true, decide_eq_true_eq, beq_iff_eq]
  split <;> omega

theorem toLower_eq_iff {c d : Char} (hd : d.toNat < 65) : c.toLower = d ↔ c = d := by
  rw [← Char.toNat_inj, ← Char.toNat_inj, toNat_toLower]
  split <;> omega

theorem lower_lower (t : Text) : lower (lower t) = lower t := by
  rw [lower, lower, List.map_map]
  exact List.map_congr_left fun c _ => toLower_toLower c

theorem dropWhile_isBlank_lower (t : Text) :
    (lower t).dropWhile isBlank = lower (t.dropWhile isBlank) := by
  have hblank : isBlank ∘ Char.toLower = isBlank := funext isBlank_toLower
  rw [lower, List.dropWhile_map, hblank, lower]

theorem trim_lower (t : Text) : trim (lower t) = lower (trim t) := by
  have hreverse : ∀ s : Text, (lower s).reverse = lower s.reverse :=
    fun s => List.map_reverse.symm
  rw [trim, trimStart, dropWhile_isBlank_lower, trimEnd, dropEndWhile, hreverse,
    dropWhile_isBlank_lower, hreverse, trim, trimStart, trimEnd, dropEndWhile]

theorem splitOn_lower {sep : Char} (hsep : sep.toNat < 65) (t : Text) :
    (lower t).splitOn sep = (t.splitOn sep).map lower := by
  induction t with
  | nil => rfl
  | cons c t ih =>
    have hmodify : ∀ pieces : List Text, (pieces.map lower).modifyHead (List.cons c.toLower) =
        (pieces.modifyHead (List.cons c)).map lower := by
      intro pieces
      cases pieces <;> rfl
    have hcons : lower (c :: t) = c.toLower :: lower t := rfl
    rw [hcons, List.splitOn_cons_eq_if_modifyHead, List.splitOn_cons_eq_if_modifyHead, ih]
    simp only [beq_iff_eq, toLower_eq_iff hsep]
    split
    · rfl
    · exact hmodify _

theorem head?_lower_eq_iff {t : Text} {d : Char} (hd : d.toNat < 65) :
    (lower t).head? = some d ↔ t.head? = some d := by
  simp [lower, toLower_eq_iff hd]

theorem getLast?_lower_eq_iff {t : Text} {d : Char} (hd : d.toNat < 65) :
    (lower t).getLast? = some d ↔ t.getLast? = some d := by
  simp [lower, toLower_eq_iff hd]

end Errata.Text
