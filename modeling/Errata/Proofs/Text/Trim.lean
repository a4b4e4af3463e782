import Errata.Text.Basic
import Mathlib.Data.List.DropRight

/-!
# Trimmed texts and last parts

A trimmed text neither begins nor ends with white space, and it is empty only if the text was
blank. What follows the last separator holds none.
-/
namespace Errata.Text

theorem trim_eq (t : Text) : trim t = (t.dropWhile isBlank).rdropWhile isBlank := rfl

theorem dropEndWhile_concat (p : Char → Bool) (t : Text) (c : Char) :
    dropEndWhile p (t ++ [c]) = if p c then dropEndWhile p t else t ++ [c] := by
  simp only [dropEndWhile, List.reverse_concat, List.dropWhile_cons]
  split <;> simp

theorem dropEndWhile_append {p : Char → Bool} {s : Text} (hs : ∀ c, s.getLast? = some c → ¬ p c)
    (t : Text) : dropEndWhile p (s ++ t) = s ++ dropEndWhile p t := by
  induction t using List.reverseRecOn with
  | nil =>
    have hself : s.rdropWhile p = s := List.rdropWhile_eq_self_iff.mpr fun hne =>
      hs _ (List.getLast?_eq_some_getLast hne)
    have hnil : dropEndWhile p [] = [] := rfl
    rwa [List.append_nil, hnil, List.append_nil]
  | append_singleton t c ih =>
    rw [← List.append_assoc, dropEndWhile_concat, dropEndWhile_concat, ih]
    split
    · rfl
    · exact List.append_assoc s t [c]

theorem trim_eq_self_iff {t : Text} :
    trim t = t ↔
      (∀ c, t.head? = some c → ¬ isBlank c) ∧ ∀ c, t.getLast? = some c → ¬ isBlank c := by
  have hstart : trimStart t = t ↔ ∀ c, t.head? = some c → ¬ isBlank c := by
    rw [trimStart, List.dropWhile_eq_self_iff]
    cases t <;> simp
  have hend : trimEnd t = t ↔ ∀ c, t.getLast? = some c → ¬ isBlank c := by
    refine List.rdropWhile_eq_self_iff.trans ?_
    cases t using List.reverseRecOn <;> simp
  rw [← hstart, ← hend]
  constructor
  · intro h
    have hlength : (trimStart t).length = t.length := by
      refine Nat.le_antisymm (List.dropWhile_sublist _).length_le ?_
      calc
        t.length = (trim t).length := congrArg List.length h.symm
        _ ≤ (trimStart t).length := (List.rdropWhile_prefix isBlank _).length_le
    have hself : trimStart t = t := (List.dropWhile_sublist _).eq_of_length hlength
    exact ⟨hself, by simpa only [trim, hself] using h⟩
  · rintro ⟨hself, hself'⟩
    rw [trim, hself, hself']

theorem trim_trim (t : Text) : trim (trim t) = trim t := by
  refine trim_eq_self_iff.mpr ⟨fun c hc => ?_, fun c hc => ?_⟩
  · obtain ⟨rest, hrest⟩ := List.rdropWhile_prefix isBlank (t.dropWhile isBlank)
    have hfirst := List.head?_dropWhile_not isBlank t
    rw [← hrest, List.head?_append, ← trim_eq, hc] at hfirst
    simpa using hfirst
  · have hne : trim t ≠ [] := by
      rintro hnil
      simp [hnil] at hc
    rw [List.getLast?_eq_some_getLast hne] at hc
    obtain rfl := Option.some.inj hc
    exact List.rdropWhile_last_not isBlank _ hne

theorem trim_sublist (t : Text) : (trim t).Sublist t :=
  (List.rdropWhile_prefix isBlank _).sublist.trans (List.dropWhile_sublist _)

theorem trim_eq_nil_iff {t : Text} : trim t = [] ↔ blank t := by
  rw [trim_eq, List.rdropWhile_eq_nil_iff, blank, List.all_eq_true]
  constructor
  · intro h c hc
    rw [← List.takeWhile_append_dropWhile (p := isBlank) (l := t)] at hc
    rcases List.mem_append.mp hc with hc | hc
    · exact List.mem_takeWhile_imp hc
    · exact h c hc
  · exact fun h c hc => h c ((List.dropWhile_sublist _).mem hc)

theorem mem_trim {c : Char} {t : Text} (hc : c ∈ t) (hblank : ¬isBlank c) : c ∈ trim t := by
  have hstart : ∀ s : Text, c ∈ s → c ∈ s.dropWhile isBlank := by
    intro s hs
    rw [← List.takeWhile_append_dropWhile (p := isBlank) (l := s)] at hs
    rcases List.mem_append.mp hs with hs | hs
    · exact absurd (List.mem_takeWhile_imp hs) hblank
    · exact hs
  rw [trim, trimEnd, dropEndWhile, List.mem_reverse]
  exact hstart _ (List.mem_reverse.mpr (hstart t hc))

theorem trim_between {before core after : Text} (hbefore : blank before) (hafter : blank after)
    (hcore : trim core = core) (hne : core ≠ []) : trim (before ++ core ++ after) = core := by
  obtain ⟨hhead, hlast⟩ := trim_eq_self_iff.mp hcore
  rw [blank, List.all_eq_true] at hbefore hafter
  have hstart : (before ++ core ++ after).dropWhile isBlank = core ++ after := by
    rw [List.append_assoc, List.dropWhile_append_of_pos hbefore]
    cases core with
    | nil => exact absurd rfl hne
    | cons c core => exact List.dropWhile_cons_of_neg (hhead c rfl)
  have hend : core.reverse.dropWhile isBlank = core.reverse := by
    cases core using List.reverseRecOn with
    | nil => rfl
    | append_singleton core c =>
      rw [List.reverse_concat]
      exact List.dropWhile_cons_of_neg (hlast c List.getLast?_concat)
  rw [trim, trimStart, hstart, trimEnd, dropEndWhile, List.reverse_append,
    List.dropWhile_append_of_pos fun c hc => hafter c (List.mem_reverse.mp hc), hend,
    List.reverse_reverse]

/-- What follows the last separator has none, and a separator stands right before it unless it is
the whole text. -/
theorem afterLast_spec (sep : Char) (t : Text) :
    sep ∉ afterLast sep t ∧
      (t = afterLast sep t ∨ ∃ before, t = before ++ sep :: afterLast sep t) := by
  have hafter : afterLast sep t = t.rtakeWhile (· != sep) := rfl
  have hsplit : t.rdropWhile (· != sep) ++ afterLast sep t = t := List.rdropWhile_append_rtakeWhile
  refine ⟨fun hmem => ?_, ?_⟩
  · rw [hafter] at hmem
    simpa using List.mem_rtakeWhile_imp hmem
  · by_cases hnil : t.rdropWhile (· != sep) = []
    · rw [hnil, List.nil_append] at hsplit
      exact .inl hsplit.symm
    · have hlast : (t.rdropWhile (· != sep)).getLast hnil = sep := by
        simpa using List.rdropWhile_last_not (· != sep) t hnil
      refine .inr ⟨(t.rdropWhile (· != sep)).dropLast, ?_⟩
      calc
        t = (t.rdropWhile (· != sep)).dropLast ++ [(t.rdropWhile (· != sep)).getLast hnil] ++
            afterLast sep t := by rw [List.dropLast_append_getLast, hsplit]
        _ = _ := by
          rw [hlast, List.append_assoc]
          rfl

end Errata.Text
