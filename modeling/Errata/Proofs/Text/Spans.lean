import Errata.Proofs.Text.Lines
import Errata.Proofs.Text.Search
import Mathlib.Data.List.Flatten

/-!
# Spans of a text

Several spans of a text are replaced at once: what any of them covers is taken out, the new text of
each stands where the span started, and every other character stays. Nothing here depends on an
order of the spans. Where they lie apart, overwriting them one after the other from the right gives
the same text, since an overwritten span moves nothing to its left.
-/
namespace Errata.Text

/-- A stretch of a text and what is to stand in its place. -/
structure Span where
  start : ℕ
  length : ℕ
  new : Text

namespace Span

def covers (s : Span) (i : ℕ) : Bool := s.start ≤ i && i < s.start + s.length

theorem covers_iff {s : Span} {i : ℕ} :
    s.covers i = true ↔ s.start ≤ i ∧ i < s.start + s.length := by
  simp [covers]

/-- The spans have a position in common. -/
def Meets (s t : Span) : Prop := ∃ i, s.covers i ∧ t.covers i

theorem meets_iff {s t : Span} :
    s.Meets t ↔ max s.start t.start < min (s.start + s.length) (t.start + t.length) := by
  simp only [Meets, covers_iff]
  constructor
  · rintro ⟨i, hs, ht⟩
    omega
  · intro h
    exact ⟨max s.start t.start, by omega⟩

instance (s t : Span) : Decidable (s.Meets t) := decidable_of_iff' _ meets_iff

/-- The same stretch, with nothing to stand in its place. -/
def erased (s : Span) : Span := { s with new := [] }

end Span

def newAt (spans : List Span) (i : ℕ) : Text := (spans.filter (·.start = i)).flatMap (·.new)

def covered (spans : List Span) (i : ℕ) : Bool := spans.any (·.covers i)

/-- The text, which starts at position `i`, with all spans replaced at once. -/
def replaceSpans (spans : List Span) : ℕ → Text → Text
  | _, [] => []
  | i, c :: t =>
    newAt spans i ++ (if covered spans i then [] else [c]) ++ replaceSpans spans (i + 1) t

/-- The characters of the text that no span covers. -/
def outsideSpans (spans : List Span) (i : ℕ) (t : Text) : Text :=
  replaceSpans (spans.map Span.erased) i t

theorem replaceSpans_append (spans : List Span) (i : ℕ) (t u : Text) :
    replaceSpans spans i (t ++ u) =
      replaceSpans spans i t ++ replaceSpans spans (i + t.length) u := by
  induction t generalizing i with
  | nil => simp [replaceSpans]
  | cons c t ih => simp [replaceSpans, ih, Nat.add_assoc, Nat.add_comm 1]

theorem replaceSpans_congr {spans spans' : List Span} {i j : ℕ} {t : Text}
    (h : ∀ k < t.length, newAt spans (i + k) = newAt spans' (j + k) ∧
      covered spans (i + k) = covered spans' (j + k)) :
    replaceSpans spans i t = replaceSpans spans' j t := by
  induction t generalizing i j with
  | nil => rfl
  | cons c t ih =>
    obtain ⟨hnew, hcovered⟩ := h 0 (by simp)
    have hrest : replaceSpans spans (i + 1) t = replaceSpans spans' (j + 1) t := by
      refine ih fun k hk => ?_
      simpa [Nat.add_assoc, Nat.add_comm 1] using h (k + 1) (by simpa using hk)
    simp_all [replaceSpans]

theorem replaceSpans_nil (i : ℕ) (t : Text) : replaceSpans [] i t = t := by
  induction t generalizing i with
  | nil => rfl
  | cons c t ih => simp [replaceSpans, newAt, covered, ih]

theorem newAt_eq_nil {spans : List Span} {i : ℕ} (h : ∀ s ∈ spans, s.start ≠ i) :
    newAt spans i = [] := by
  have hfilter : spans.filter (·.start = i) = [] := by simpa using h
  rw [newAt, hfilter, List.flatMap_nil]

theorem covered_eq_true_iff {spans : List Span} {i : ℕ} :
    covered spans i = true ↔ ∃ s ∈ spans, s.covers i := List.any_eq_true

theorem replaceSpans_eq_self {spans : List Span} {i : ℕ} {t : Text}
    (h : ∀ k < t.length, ∀ s ∈ spans, s.start ≠ i + k ∧ s.covers (i + k) = false) :
    replaceSpans spans i t = t := by
  have hnone : replaceSpans spans i t = replaceSpans [] i t := by
    refine replaceSpans_congr fun k hk => ⟨newAt_eq_nil fun s hs => (h k hk s hs).1, ?_⟩
    simpa [covered] using fun s hs => (h k hk s hs).2
  rw [hnone, replaceSpans_nil]

theorem replaceSpans_of_forall_le {spans : List Span} {n : ℕ} (h : ∀ s ∈ spans, n ≤ s.start)
    (t : Text) : replaceSpans spans 0 t = t.take n ++ replaceSpans spans n (t.drop n) := by
  by_cases hn : n ≤ t.length
  · have hleft : replaceSpans spans 0 (t.take n) = t.take n := by
      refine replaceSpans_eq_self fun k hk s hs => ?_
      have hstart := h s hs
      have hk : k < n := by simpa [hn] using hk
      simp only [Span.covers, Bool.and_eq_false_iff, decide_eq_false_iff_not]
      omega
    have hsplit := replaceSpans_append spans 0 (t.take n) (t.drop n)
    rwa [List.take_append_drop, hleft, List.length_take_of_le hn, Nat.zero_add] at hsplit
  · have hleft : replaceSpans spans 0 t = t := by
      refine replaceSpans_eq_self fun k hk s hs => ?_
      have hstart := h s hs
      simp only [Span.covers, Bool.and_eq_false_iff, decide_eq_false_iff_not]
      omega
    rw [hleft, List.take_of_length_le (by omega), List.drop_eq_nil_of_le (by omega)]
    simp [replaceSpans]

theorem newAt_append (spans spans' : List Span) (i : ℕ) :
    newAt (spans ++ spans') i = newAt spans i ++ newAt spans' i := by
  simp [newAt, List.filter_append]

theorem covered_append (spans spans' : List Span) (i : ℕ) :
    covered (spans ++ spans') i = (covered spans i || covered spans' i) := by
  simp [covered]

theorem replaceSpans_eq_nil {spans : List Span} {i : ℕ} {t : Text}
    (h : ∀ k < t.length, newAt spans (i + k) = [] ∧ covered spans (i + k) = true) :
    replaceSpans spans i t = [] := by
  induction t generalizing i with
  | nil => rfl
  | cons c t ih =>
    obtain ⟨hnew, hcovered⟩ := h 0 (by simp)
    have hrest : replaceSpans spans (i + 1) t = [] := by
      refine ih fun k hk => ?_
      simpa [Nat.add_assoc, Nat.add_comm 1] using h (k + 1) (by simpa using hk)
    simp_all [replaceSpans]

/-- The stretch of a span becomes its new text, if all other spans start behind it. -/
theorem replaceSpans_stretch {spans : List Span} {s : Span} {t : Text}
    (hspans : ∀ u ∈ spans, s.start + s.length ≤ u.start) (hpos : 0 < s.length)
    (hlength : t.length = s.length) : replaceSpans (spans ++ [s]) s.start t = s.new := by
  have hothers : ∀ k < s.length, newAt spans (s.start + k) = [] := by
    intro k hk
    refine newAt_eq_nil fun u hu => ?_
    have hstart := hspans u hu
    omega
  have hcovered : ∀ k < s.length, covered (spans ++ [s]) (s.start + k) = true := by
    intro k hk
    simp [covered, Span.covers, hk]
  obtain ⟨c, u, rfl⟩ := List.exists_cons_of_length_pos (hlength ▸ hpos)
  rw [List.length_cons] at hlength
  have hrest : replaceSpans (spans ++ [s]) (s.start + 1) u = [] := by
    refine replaceSpans_eq_nil fun k hk => ?_
    rw [Nat.add_assoc, newAt_append, hothers _ (by omega), hcovered _ (by omega)]
    exact ⟨newAt_eq_nil (by simp), rfl⟩
  have hnew : newAt (spans ++ [s]) s.start = s.new := by
    rw [newAt_append, show newAt spans s.start = [] from hothers 0 hpos]
    simp [newAt]
  have hc : covered (spans ++ [s]) s.start = true := hcovered 0 hpos
  simp [replaceSpans, hnew, hc, hrest]

/-- One more span to the left of all others is replaced by overwriting it in the text in which the
others have been. -/
theorem replaceSpans_concat {spans : List Span} {s : Span} {t : Text}
    (hspans : ∀ u ∈ spans, s.start + s.length ≤ u.start) (hpos : 0 < s.length)
    (ht : s.start + s.length ≤ t.length) :
    replaceSpans (spans ++ [s]) 0 t =
      overwrite (replaceSpans spans 0 t) s.start s.length s.new := by
  set n := s.start + s.length with hn
  have hright : replaceSpans (spans ++ [s]) n (t.drop n) = replaceSpans spans n (t.drop n) := by
    refine replaceSpans_congr fun k _ => ?_
    have hnew : newAt [s] (n + k) = [] := newAt_eq_nil (by simp; omega)
    have hcovered : covered [s] (n + k) = false := by
      simp [covered, Span.covers]
      omega
    rw [newAt_append, covered_append, hnew, hcovered, List.append_nil, Bool.or_false]
    exact ⟨rfl, rfl⟩
  have hstretch : replaceSpans (spans ++ [s]) s.start ((t.drop s.start).take s.length) = s.new :=
    replaceSpans_stretch hspans hpos (by simp; omega)
  have hleft : ∀ u ∈ spans ++ [s], s.start ≤ u.start := by
    intro u hu
    rcases List.mem_append.mp hu with hu | hu
    · have := hspans u hu
      omega
    · rw [List.mem_singleton.mp hu]
  have hmiddle : replaceSpans (spans ++ [s]) s.start (t.drop s.start) =
      s.new ++ replaceSpans spans n (t.drop n) := by
    rw [← hright]
    conv_lhs => rw [← List.take_append_drop s.length (t.drop s.start)]
    rw [replaceSpans_append, hstretch, List.drop_drop, List.length_take, List.length_drop,
      Nat.min_eq_left (by omega)]
  have hlen : (t.take n).length = n := List.length_take_of_le ht
  rw [replaceSpans_of_forall_le hleft, hmiddle, replaceSpans_of_forall_le hspans, overwrite, ← hn,
    List.drop_left' hlen, List.take_append_of_le_length (by omega), List.take_take,
    Nat.min_eq_left (by omega), List.append_assoc]

theorem OccursAt.replaceSpans {needle t : Text} {spans : List Span} {i : ℕ}
    (h : OccursAt needle t i) (hspans : ∀ s ∈ spans, i + needle.length ≤ s.start) :
    OccursAt needle (replaceSpans spans 0 t) i := by
  have hlength := h.add_length_le
  obtain ⟨-, rest, hrest⟩ := h
  have htake : (t.take (i + needle.length)).drop i = needle := by
    rw [List.drop_take, Nat.add_sub_cancel_left, ← hrest, List.take_left]
  have hlen : (t.take (i + needle.length)).length = i + needle.length :=
    List.length_take_of_le (by omega)
  rw [replaceSpans_of_forall_le hspans]
  refine ⟨by simp; omega, ?_⟩
  rw [List.drop_append_of_le_length (by omega), htake]
  exact List.prefix_append _ _

theorem newAt_of_perm {spans spans' : List Span} (h : spans.Perm spans')
    (hpos : ∀ s ∈ spans, 0 < s.length) (hapart : spans.Pairwise fun s t => ¬s.Meets t) (i : ℕ) :
    newAt spans i = newAt spans' i := by
  have hperm := h.filter fun s => decide (s.start = i)
  have hfilter := hapart.filter fun s => decide (s.start = i)
  rw [newAt, newAt]
  cases hstarting : spans.filter fun s => decide (s.start = i) with
  | nil =>
    rw [hstarting] at hperm
    rw [List.nil_perm.mp hperm]
  | cons s starting =>
    have hat : ∀ u ∈ s :: starting, u.start = i ∧ 0 < u.length := by
      intro u hu
      obtain ⟨hmem, hstart⟩ := List.mem_filter.mp (hstarting ▸ hu)
      exact ⟨by simpa using hstart, hpos u hmem⟩
    cases starting with
    | nil =>
      rw [hstarting] at hperm
      rw [List.singleton_perm.mp hperm]
    | cons u starting =>
      rw [hstarting] at hfilter
      obtain ⟨hs, hslength⟩ := hat s (by simp)
      obtain ⟨hu, hulength⟩ := hat u (by simp)
      have hnot : ¬s.Meets u := List.rel_of_pairwise_cons hfilter (by simp)
      refine absurd ?_ hnot
      rw [Span.meets_iff]
      omega

theorem replaceSpans_of_perm {spans spans' : List Span} (h : spans.Perm spans')
    (hpos : ∀ s ∈ spans, 0 < s.length) (hapart : spans.Pairwise fun s t => ¬s.Meets t) (i : ℕ)
    (t : Text) : replaceSpans spans i t = replaceSpans spans' i t := by
  refine replaceSpans_congr fun k _ => ⟨newAt_of_perm h hpos hapart _, ?_⟩
  rw [Bool.eq_iff_iff, covered_eq_true_iff, covered_eq_true_iff]
  simp only [h.mem_iff]

theorem newAt_erased (spans : List Span) (i : ℕ) : newAt (spans.map Span.erased) i = [] := by
  have hnil : ∀ s ∈ (spans.map Span.erased).filter (·.start = i), s.new = [] := by
    intro s hs
    obtain ⟨u, -, rfl⟩ := List.mem_map.mp (List.mem_filter.mp hs).1
    rfl
  exact List.flatMap_eq_nil_iff.mpr hnil

theorem covered_erased (spans : List Span) (i : ℕ) :
    covered (spans.map Span.erased) i = covered spans i := by
  rw [covered, covered, List.any_map]
  rfl

/-- What lies outside of some spans is still there when others, within them, are replaced. -/
theorem outsideSpans_sublist {spans spans' : List Span} {i j : ℕ} {t : Text}
    (h : ∀ k < t.length, covered spans' (j + k) = true → covered spans (i + k) = true) :
    (outsideSpans spans i t).Sublist (replaceSpans spans' j t) := by
  induction t generalizing i j with
  | nil => exact List.Sublist.refl _
  | cons c t ih =>
    have hrest : (outsideSpans spans (i + 1) t).Sublist (replaceSpans spans' (j + 1) t) := by
      refine ih fun k hk => ?_
      simpa [Nat.add_assoc, Nat.add_comm 1] using h (k + 1) (by simpa using hk)
    have h0 := h 0 (by simp)
    rw [outsideSpans, replaceSpans, replaceSpans, newAt_erased, covered_erased, List.nil_append]
    refine List.Sublist.append ?_ hrest
    refine List.Sublist.trans ?_ (List.sublist_append_right _ _)
    cases hc : covered spans i <;> cases hc' : covered spans' j <;> simp_all

def lineStart (ls : List Line) (i : ℕ) : ℕ := ((ls.take i).flatMap Line.chars).length

theorem lineStart_succ {ls : List Line} {i : ℕ} {l : Line} (hl : ls[i]? = some l) :
    lineStart ls (i + 1) = lineStart ls i + l.chars.length := by
  rw [lineStart, List.take_add_one, hl, List.flatMap_append, List.length_append]
  simp [lineStart]

theorem lineStart_mono {ls : List Line} {i j : ℕ} (h : i ≤ j) :
    lineStart ls i ≤ lineStart ls j := by
  have htake : (ls.take i).Sublist (ls.take j) := (List.take_prefix_take_left h).sublist
  exact (htake.flatMap Line.chars).length_le

theorem lineStart_add_inj {ls : List Line} {i j k m : ℕ} {l l' : Line} (hl : ls[i]? = some l)
    (hl' : ls[j]? = some l') (hk : k < l.chars.length) (hm : m < l'.chars.length)
    (h : lineStart ls i + k = lineStart ls j + m) : i = j ∧ k = m := by
  have hi := lineStart_succ hl
  have hj := lineStart_succ hl'
  rcases Nat.lt_trichotomy i j with hlt | rfl | hlt
  · have hmono : lineStart ls (i + 1) ≤ lineStart ls j := lineStart_mono hlt
    omega
  · exact ⟨rfl, by omega⟩
  · have hmono : lineStart ls (j + 1) ≤ lineStart ls i := lineStart_mono hlt
    omega

theorem replaceSpans_flatMap_chars (spans : List Span) (ls : List Line) :
    replaceSpans spans 0 (ls.flatMap Line.chars) =
      ls.zipIdx.flatMap fun x => replaceSpans spans (lineStart ls x.2) x.1.chars := by
  induction ls using List.reverseRecOn with
  | nil => rfl
  | append_singleton ls l ih =>
    have hbefore : (ls.zipIdx.flatMap fun x =>
        replaceSpans spans (lineStart (ls ++ [l]) x.2) x.1.chars) =
        ls.zipIdx.flatMap fun x => replaceSpans spans (lineStart ls x.2) x.1.chars := by
      refine List.flatMap_congr fun x hx => ?_
      have hlt : x.2 < ls.length := by simpa using List.snd_lt_of_mem_zipIdx hx
      rw [lineStart, List.take_append_of_le_length (Nat.le_of_lt hlt), lineStart]
    rw [List.flatMap_append, replaceSpans_append, ih, List.zipIdx_append, List.flatMap_append,
      hbefore]
    simp [lineStart]

theorem replaceSpans_cut (spans : List Span) (t : Text) :
    replaceSpans spans 0 t =
      (cut t).zipIdx.flatMap fun x => replaceSpans spans (lineStart (cut t) x.2) x.1.chars := by
  rw [← replaceSpans_flatMap_chars]
  exact congrArg (replaceSpans spans 0) (join_cut t).symm

end Errata.Text
