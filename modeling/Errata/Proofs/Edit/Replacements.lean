import Errata.Proofs.Edit.Nearest
import Errata.Proofs.Edit.Untouched
import Errata.Proofs.Text.Spans

/-!
# Replacements in their place

A pass over fixes that replace in place, where the text of each stands exactly at the reported
place. The pass goes along a line from the right to the left, so a fix whose span is still whole
finds its text right there, and what it writes moves no span that is still to come. A fix whose span
shares a character with one that was rewritten before has nothing of its own left to replace: it is
served only if it looks for its text elsewhere in the line.
-/
namespace Errata.Edit

open Text (Span OccursAt replaceSpans outsideSpans)

/-- What the fix replaces in its line when it is made right at the reported column. -/
def span (f : Fix) : Span := ⟨f.violation.col, f.needle.length, f.replacement⟩

/-- The fix replaces in place, and its text stands on the reported line at the reported column. -/
structure IsExact (ls : List Text) (f : Fix) : Prop where
  placement : f.placement = .atMatch
  occurs : ∃ line, ls[f.violation.row]? = some line ∧ OccursAt f.needle line f.violation.col

/-- The spans of the fixes have a character in common. -/
def Meet (f g : Fix) : Prop := f.row = g.row ∧ (span f).Meets (span g)

instance (f g : Fix) : Decidable (Meet f g) := inferInstanceAs (Decidable (_ ∧ _))

/-- The fix replaces something, and nothing of it is replaced by one of the others. -/
def IsFree (others : List Fix) (f : Fix) : Prop := f.needle ≠ [] ∧ ∀ g ∈ others, ¬Meet g f

instance (others : List Fix) (f : Fix) : Decidable (IsFree others f) :=
  inferInstanceAs (Decidable (_ ∧ _))

/-- The fixes that get their own spans when the spans are given away in turn: each to the first one
that comes for it or for a part of it. -/
def served (fixes : List Fix) : List Fix :=
  fixes.foldl (fun others f => if IsFree others f then others ++ [f] else others) []

def spansIn (fixes : List Fix) (i : ℕ) : List Span := (fixes.filter (·.row = i)).map span

/-- The lines with the spans of all fixes replaced at once. -/
def rewritten (ls : List Text) (fixes : List Fix) : List Text :=
  ls.zipIdx.map fun x => replaceSpans (spansIn fixes x.2) 0 x.1

/-- Each fix stands in the relation to those that come before it. -/
def AtEachTurn (P : List Fix → Fix → Prop) (fixes : List Fix) : Prop :=
  ∀ x ∈ fixes.zipIdx, P (fixes.take x.2) x.1

instance (P : List Fix → Fix → Prop) [∀ before f, Decidable (P before f)] (fixes : List Fix) :
    Decidable (AtEachTurn P fixes) :=
  inferInstanceAs (Decidable (∀ x ∈ fixes.zipIdx, _))

variable {ls : List Text} {fixes : List Fix} {f g : Fix}

theorem IsExact.row_eq (h : IsExact ls f) : f.row = f.violation.row := by
  simp [Fix.row, h.placement]

theorem IsExact.row_lt (h : IsExact ls f) : f.row < ls.length := by
  obtain ⟨line, hline, -⟩ := h.occurs
  rw [h.row_eq]
  exact (List.getElem?_eq_some_iff.mp hline).1

theorem atEachTurn_concat {P : List Fix → Fix → Prop} :
    AtEachTurn P (fixes ++ [f]) ↔ AtEachTurn P fixes ∧ P fixes f := by
  have hbefore : ∀ x ∈ fixes.zipIdx, (fixes ++ [f]).take x.2 = fixes.take x.2 := by
    intro x hx
    have hlt : x.2 < fixes.length := by simpa using List.snd_lt_of_mem_zipIdx hx
    rw [List.take_append_of_le_length (Nat.le_of_lt hlt)]
  have hself : (fixes ++ [f]).take fixes.length = fixes := List.take_left
  simp only [AtEachTurn, List.zipIdx_append, List.mem_append, or_imp, forall_and]
  refine and_congr ⟨fun h x hx => hbefore x hx ▸ h x hx, fun h x hx => (hbefore x hx).symm ▸ h x hx⟩ ?_
  simp [hself]

theorem served_concat (fixes : List Fix) (f : Fix) : served (fixes ++ [f]) =
    if IsFree (served fixes) f then served fixes ++ [f] else served fixes := by
  rw [served, List.foldl_append]
  rfl

theorem mem_served (h : g ∈ served fixes) : g ∈ fixes ∧ g.needle ≠ [] := by
  induction fixes using List.reverseRecOn with
  | nil => cases h
  | append_singleton fixes f ih =>
    rw [served_concat] at h
    split at h
    · next hfree =>
      rcases List.mem_append.mp h with h | h
      · exact ⟨List.mem_append_left _ (ih h).1, (ih h).2⟩
      · obtain rfl := List.mem_singleton.mp h
        exact ⟨List.mem_append_right _ h, hfree.1⟩
    · exact ⟨List.mem_append_left _ (ih h).1, (ih h).2⟩

theorem served_eq_self (hne : ∀ f ∈ fixes, f.needle ≠ [])
    (hapart : fixes.Pairwise fun f g => ¬Meet f g) : served fixes = fixes := by
  induction fixes using List.reverseRecOn with
  | nil => rfl
  | append_singleton fixes f ih =>
    obtain ⟨hpre, -, hlast⟩ := List.pairwise_append.mp hapart
    rw [served_concat, ih (fun g hg => hne g (List.mem_append_left _ hg)) hpre]
    exact if_pos ⟨hne f (by simp), fun g hg => hlast g hg f (by simp)⟩

theorem spansIn_append (fixes fixes' : List Fix) (i : ℕ) :
    spansIn (fixes ++ fixes') i = spansIn fixes i ++ spansIn fixes' i := by
  simp [spansIn]

theorem getElem?_rewritten (ls : List Text) (fixes : List Fix) (i : ℕ) :
    (rewritten ls fixes)[i]? = ls[i]?.map (replaceSpans (spansIn fixes i) 0) := by
  simp [rewritten, Function.comp_def]

theorem IsExact.exists_rewritten (h : IsExact ls f) (fixes : List Fix) :
    ∃ line, (rewritten ls fixes)[f.row]? = some line := by
  rw [getElem?_rewritten, List.getElem?_eq_getElem h.row_lt, Option.map_some]
  exact ⟨_, rfl⟩

theorem isSome_overwriteNear? (needle : Text) (column : ℕ) (new line : Text) :
    (overwriteNear? needle column new line).isSome =
      (decide (needle ≠ []) && Text.contains needle line) := by
  rw [overwriteNear?_eq]
  cases needle with
  | nil => rfl
  | cons c needle =>
    have hne : c :: needle ≠ [] := by simp
    have hiff : (Text.findNear? (c :: needle) column line).isSome =
        Text.contains (c :: needle) line := by
      rw [Text.contains, Bool.eq_iff_iff, Option.isSome_iff_ne_none, Option.isSome_iff_ne_none,
        Ne, Ne, Text.findNear?_eq_none_iff hne, Text.find?_eq_none_iff]
    simp [hiff]

theorem makeInBlock?_of_atMatch (h : f.placement = .atMatch) (line : Text) (rest : List Text) :
    makeInBlock? f (line :: rest) =
      (overwriteNear? f.needle f.violation.col f.replacement line).map (· :: rest) := by
  unfold makeInBlock?
  simp [h]

/-- The pass over the fixes has given each span away as `served` does, and made no other fix. -/
structure Serves (ls : List Text) (fixes : List Fix) : Prop where
  made : outcomes ls fixes true = served fixes
  block_eq : ∀ i, block ls fixes i = (rewritten ls (served fixes))[i]?.toList

theorem Serves.succeeds_eq (h : Serves ls fixes) (hf : IsExact ls f) {line : Text}
    (hline : (rewritten ls (served fixes))[f.row]? = some line) :
    succeeds ls fixes f = (decide (f.needle ≠ []) && Text.contains f.needle line) := by
  have hlt : f.row < ls.length := by
    simpa [rewritten] using (List.getElem?_eq_some_iff.mp hline).1
  rw [succeeds, h.block_eq, hline, Option.toList_some, makeInBlock?_of_atMatch hf.placement,
    Option.isSome_map, isSome_overwriteNear?, decide_eq_true (Nat.le_of_lt hlt), Bool.true_and]

/-- What has been replaced in the line of a fix whose span is free starts behind that span. -/
theorem IsFree.add_length_le (hfree : IsFree (served fixes) f)
    (hafter : ∀ g ∈ fixes, g.row = f.row → f.violation.col ≤ g.violation.col) :
    ∀ s ∈ spansIn (served fixes) f.row, f.violation.col + f.needle.length ≤ s.start := by
  intro s hs
  obtain ⟨g, hg, rfl⟩ := List.mem_map.mp hs
  obtain ⟨hserved, hrow⟩ := List.mem_filter.mp hg
  have hrow : g.row = f.row := by simpa using hrow
  obtain ⟨hmem, hne⟩ := mem_served hserved
  have hapart : ¬(span g).Meets (span f) := fun hmeets => hfree.2 g hserved ⟨hrow, hmeets⟩
  have hcol := hafter g hmem hrow
  have hpos := List.length_pos_of_ne_nil hfree.1
  have hlength := List.length_pos_of_ne_nil hne
  rw [Span.meets_iff] at hapart
  simp only [span] at hapart ⊢
  omega

theorem Serves.makeInBlock?_of_isFree (h : Serves ls fixes) (hf : IsExact ls f)
    (hafter : ∀ g ∈ fixes, g.row = f.row → f.violation.col ≤ g.violation.col)
    (hfree : IsFree (served fixes) f) : makeInBlock? f (block ls fixes f.row) =
      some (rewritten ls (served fixes ++ [f]))[f.row]?.toList := by
  obtain ⟨line, hline, hocc⟩ := hf.occurs
  rw [← hf.row_eq] at hline
  have hspans := hfree.add_length_le hafter
  have hself : spansIn [f] f.row = [span f] := by simp [spansIn]
  have hrewritten : replaceSpans (spansIn (served fixes) f.row ++ [span f]) 0 line =
      Text.overwrite (replaceSpans (spansIn (served fixes) f.row) 0 line) f.violation.col
        f.needle.length f.replacement :=
    Text.replaceSpans_concat hspans (List.length_pos_of_ne_nil hfree.1) hocc.add_length_le
  have hnear : Text.findNear? f.needle f.violation.col
      (replaceSpans (spansIn (served fixes) f.row) 0 line) = some f.violation.col :=
    (Text.findNear?_eq_some_iff hfree.1).mpr
      ⟨hocc.replaceSpans hspans, .inl ⟨Nat.le_refl _, fun j _ _ => by omega⟩⟩
  rw [h.block_eq, getElem?_rewritten, getElem?_rewritten, hline, Option.map_some, Option.map_some,
    Option.toList_some, Option.toList_some, spansIn_append, hself, hrewritten,
    makeInBlock?_of_atMatch hf.placement]
  simp [overwriteNear?_eq, hfree.1, hnear]

/-- The pass goes on as `served` does if the fix that comes next is skipped when its span is not
free. -/
theorem Serves.concat (h : Serves ls fixes) (hf : IsExact ls f)
    (hafter : ∀ g ∈ fixes, g.row = f.row → f.violation.col ≤ g.violation.col)
    (hlate : ¬IsFree (served fixes) f → succeeds ls fixes f = false) :
    Serves ls (fixes ++ [f]) := by
  have hle := Nat.le_of_lt hf.row_lt
  rcases Decidable.em (IsFree (served fixes) f) with hfree | hfree
  · have hmade := h.makeInBlock?_of_isFree hf hafter hfree
    have hsucceeds : succeeds ls fixes f = true := by
      simp [succeeds, hmade, hle]
    refine ⟨?_, fun i => ?_⟩
    · rw [outcomes_append, if_pos hsucceeds, h.made, served_concat, if_pos hfree]
    · rw [served_concat, if_pos hfree]
      by_cases hi : f.row = i
      · subst hi
        rw [block_append_self, hmade, Option.getD_some]
      · have hnone : spansIn [f] i = [] := by simp [spansIn, hi]
        rw [block_append_ne hi, h.block_eq, getElem?_rewritten, getElem?_rewritten,
          spansIn_append, hnone, List.append_nil]
  · have hfails := hlate hfree
    refine ⟨?_, fun i => ?_⟩
    · rw [outcomes_append, if_neg (by simp [hfails]), h.made, served_concat, if_neg hfree]
    · rw [served_concat, if_neg hfree, ← h.block_eq]
      by_cases hi : f.row = i
      · subst hi
        have hnone : makeInBlock? f (block ls fixes f.row) = none := by
          simpa [succeeds, hle] using hfails
        rw [block_append_self, hnone, Option.getD_none]
      · exact block_append_ne hi

/-- A fix that comes too late for its span finds its text nowhere in what its line has become when
all fixes before it have been served. -/
def IsQuiet (ls : List Text) (fixes : List Fix) : Prop :=
  AtEachTurn (fun before f => (∃ g ∈ served before, Meet g f) →
    ∀ line ∈ (rewritten ls (served before))[f.row]?, Text.contains f.needle line = false) fixes

instance (ls : List Text) (fixes : List Fix) : Decidable (IsQuiet ls fixes) :=
  inferInstanceAs (Decidable (AtEachTurn _ _))

/-- A fix is skipped if one that was made before it shares a character with its span. -/
def SkipsConsumed (ls : List Text) (fixes : List Fix) : Prop :=
  AtEachTurn (fun before f => (∃ g ∈ outcomes ls before true, Meet g f) →
    succeeds ls before f = false) fixes

theorem rewritten_nil (ls : List Text) : rewritten ls [] = ls := by
  simp [rewritten, spansIn, Text.replaceSpans_nil]

theorem Meet.needle_ne_nil (h : Meet g f) : f.needle ≠ [] := by
  obtain ⟨-, i, -, hi⟩ := h
  intro hnil
  simp [Span.covers, span, hnil] at hi
  omega

/-- Fixes in the order of a pass: on one line the one further to the right comes first. -/
def GoesLeft (fixes : List Fix) : Prop :=
  fixes.Pairwise fun g f => g.row = f.row → f.violation.col ≤ g.violation.col

theorem goesLeft_order (h : ∀ f ∈ fixes, f.placement = .atMatch) : GoesLeft (order fixes) := by
  refine (List.pairwise_mergeSort precedes_trans precedes_total fixes).imp_of_mem ?_
  intro g f hg hf hprecedes hrow
  have hplacement : ∀ x ∈ order fixes, x.placement.inserts = false := by
    intro x hx
    rw [h x ((order_perm fixes).mem_iff.mp hx)]
    rfl
  simpa [precedes, hrow, hplacement g hg, hplacement f hf] using hprecedes

theorem serves_of_isQuiet (hexact : ∀ f ∈ fixes, IsExact ls f) (hleft : GoesLeft fixes)
    (hquiet : IsQuiet ls fixes) : Serves ls fixes := by
  induction fixes using List.reverseRecOn with
  | nil => exact ⟨rfl, fun i => by rw [served, List.foldl_nil, rewritten_nil]; rfl⟩
  | append_singleton fixes f ih =>
    obtain ⟨hpre, -, hlast⟩ := List.pairwise_append.mp hleft
    obtain ⟨hquiet, hf⟩ := atEachTurn_concat.mp hquiet
    have hexactf := hexact f (by simp)
    have hserves := ih (fun g hg => hexact g (List.mem_append_left _ hg)) hpre hquiet
    refine hserves.concat hexactf (fun g hg => hlast g hg f (by simp)) fun hlate => ?_
    obtain ⟨line, hline⟩ := hexactf.exists_rewritten (served fixes)
    rw [hserves.succeeds_eq hexactf hline]
    by_cases hne : f.needle = []
    · simp [hne]
    · have hmeets : ∃ g ∈ served fixes, Meet g f := by
        simpa [IsFree, hne] using hlate
      rw [hf hmeets _ hline, Bool.and_false]

/-- No fix is made for a span of which something was replaced before, exactly if each that comes too
late finds its text nowhere. -/
theorem skipsConsumed_iff (hexact : ∀ f ∈ fixes, IsExact ls f) (hleft : GoesLeft fixes) :
    SkipsConsumed ls fixes ↔ IsQuiet ls fixes := by
  induction fixes using List.reverseRecOn with
  | nil => simp [SkipsConsumed, IsQuiet, AtEachTurn]
  | append_singleton fixes f ih =>
    have hpre := (List.pairwise_append.mp hleft).1
    have hexactf := hexact f (by simp)
    have hexact := fun g hg => hexact g (List.mem_append_left [f] hg)
    rw [SkipsConsumed, IsQuiet, atEachTurn_concat, atEachTurn_concat, ← SkipsConsumed, ← IsQuiet,
      ih hexact hpre]
    refine and_congr_right fun hquiet => ?_
    have hserves := serves_of_isQuiet hexact hpre hquiet
    obtain ⟨line, hline⟩ := hexactf.exists_rewritten (served fixes)
    rw [hserves.made, hserves.succeeds_eq hexactf hline, hline]
    refine imp_congr_right fun ⟨g, _, hmeet⟩ => ?_
    simp [hmeet.needle_ne_nil]

theorem Serves.blocks_eq (h : Serves ls fixes) :
    blocks ls fixes = rewritten ls (served fixes) := by
  have hblocks : blocks ls fixes = (List.range (ls.length + 1)).flatMap fun i =>
      (rewritten ls (served fixes))[i]?.toList :=
    List.flatMap_congr fun i _ => h.block_eq i
  rw [hblocks, flatMap_getElem?, List.take_of_length_le]
  simp [rewritten]

end Errata.Edit
