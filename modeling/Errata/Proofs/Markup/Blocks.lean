import Errata.Proofs.Markup.Comments
import Mathlib.Data.List.Induction

/-!
# Open blocks and the attributes above them

An open block was opened by a fence in prose, and its `subs` expression stands in an attribute line
among the two lines above that fence. The look back goes by the lines alone and does not ask what
the scan took them for. A line that closes a comment or another block right above the fence has the
scan in prose again, and the attribute line above it, which the comment or the block has swallowed,
is read all the same.
-/
namespace Errata.Markup

open Text

variable {lines : List Text} {n : ℕ} {line : Text} {b : Block}

def isDelimiter (line : Text) : Bool :=
  isCommentFence line || (Fence.ofDelimiter? (trim line)).isSome

theorem isDelimiter_of_fence {fence : Fence} (h : trim line = fence.delimiter) :
    isDelimiter line := by
  rw [isDelimiter, Bool.or_eq_true, h]
  refine .inr ?_
  cases fence <;> decide

namespace Scan

theorem after_take_succ (h : lines[n]? = some line) :
    after (lines.take (n + 1)) = (after (lines.take n)).step line := by
  rw [List.take_add_one, h, Option.toList_some, after_append_singleton]

theorem region_take_succ (h : lines[n]? = some line) :
    (after (lines.take (n + 1))).region = (after (lines.take n)).regionAfter line := by
  rw [after_take_succ h, step]

theorem index_after (lines : List Text) : (after lines).index = lines.length := by
  induction lines using List.reverseRecOn with
  | nil => rfl
  | append_singleton lines line ih =>
    rw [after_append_singleton, step, ih, List.length_append, List.length_singleton]

theorem index_after_take (h : lines[n]? = some line) : (after (lines.take n)).index = n := by
  rw [index_after, List.length_take_of_le (Nat.le_of_lt (List.getElem?_eq_some_iff.mp h).1)]

theorem above_after (lines : List Text) : (after lines).above = lines.reverse.take 2 := by
  induction lines using List.reverseRecOn with
  | nil => rfl
  | append_singleton lines line ih =>
    rw [after_append_singleton, step, ih, List.reverse_concat, List.take_take]
    rfl

theorem regionAfter_of_not_isDelimiter (s : Scan) (h : ¬isDelimiter line) :
    s.regionAfter line = s.region := by
  have hcomment : trim line ≠ commentFence := by
    intro hline
    simp [isDelimiter, isCommentFence, hline] at h
  have hfence : Fence.ofDelimiter? (trim line) = none := by
    simpa [isDelimiter, isCommentFence, hcomment] using h
  unfold regionAfter
  cases s.region with
  | prose => simp [hcomment, hfence]
  | comment => simp [hcomment]
  | block b =>
    have hend : trim line ≠ b.fence.delimiter := fun hline => h (isDelimiter_of_fence hline)
    simp [hend]

theorem regionAfter_ne_prose {s : Scan} (hregion : s.region = .prose) (h : isDelimiter line) :
    s.regionAfter line ≠ .prose := by
  unfold regionAfter
  rw [hregion]
  dsimp only
  split
  · simp
  · next hcomment =>
    split
    · simp
    · next hfence => simp [isDelimiter, isCommentFence, hcomment, hfence] at h

/-- A block that is open behind a line was open before it, or the line is a fence that opens it. -/
theorem regionAfter_eq_block {s : Scan} (h : s.regionAfter line = .block b) :
    s.region = .block b ∨
      s.region = .prose ∧ Fence.ofDelimiter? (trim line) = some b.fence ∧
        b = ⟨b.fence, s.index, Attribute.subsAbove s.above⟩ := by
  unfold regionAfter at h
  cases hregion : s.region with
  | prose =>
    simp only [hregion] at h
    split at h
    · cases h
    · split at h
      · next fence hfence =>
        obtain rfl := Region.block.inj h
        exact .inr ⟨rfl, hfence, rfl⟩
      · cases h
  | comment =>
    simp only [hregion] at h
    split at h <;> cases h
  | block b' =>
    simp only [hregion] at h
    split at h
    · cases h
    · exact .inl h

end Scan

theorem blockAt_eq_some_iff :
    blockAt lines n = some b ↔ (Scan.after (lines.take n)).region = .block b := by
  unfold blockAt
  cases (Scan.after (lines.take n)).region <;> simp

theorem blockAt_succ_of_none (h : lines[n]? = none) : blockAt lines (n + 1) = blockAt lines n := by
  rw [blockAt, List.take_add_one, h, Option.toList_none, List.append_nil, ← blockAt]

/-- An open block has been opened by a fence that stands in prose, and its expression was read
above that fence. -/
theorem opened_of_blockAt (h : blockAt lines n = some b) :
    b.line < n ∧ (Scan.after (lines.take b.line)).region = .prose ∧
      (∃ line, lines[b.line]? = some line ∧ Fence.ofDelimiter? (trim line) = some b.fence) ∧
      b.subs = Attribute.subsAbove (Scan.after (lines.take b.line)).above := by
  induction n with
  | zero => cases h
  | succ n ih =>
    cases hline : lines[n]? with
    | none =>
      rw [blockAt_succ_of_none hline] at h
      obtain ⟨hlt, hopened⟩ := ih h
      exact ⟨by omega, hopened⟩
    | some line =>
      rw [blockAt_eq_some_iff, Scan.region_take_succ hline] at h
      rcases Scan.regionAfter_eq_block h with h | ⟨hprose, hfence, hb⟩
      · obtain ⟨hlt, hopened⟩ := ih (blockAt_eq_some_iff.mpr h)
        exact ⟨by omega, hopened⟩
      · have hindex : b.line = n := (congrArg Block.line hb).trans (Scan.index_after_take hline)
        rw [hindex]
        exact ⟨Nat.lt_succ_self n, hprose, ⟨line, hline, hfence⟩, congrArg Block.subs hb⟩

namespace Attribute

def given? (line : Text) : Option Text := if isLine (trim line) then subs? (trim line) else none

theorem findSome?_eq_find?_bind (candidates : List Text) :
    candidates.findSome? subs? = (candidates.find? fun line => (subs? line).isSome).bind subs? := by
  induction candidates with
  | nil => rfl
  | cons line candidates ih =>
    rw [List.findSome?_cons, List.find?_cons, ih]
    cases hline : subs? line <;> simp [hline]

theorem subsAbove_eq_findSome? (above : List Text) : subsAbove above = above.findSome? given? := by
  have hcandidates : above.findSome? given? =
      ((above.map trim).filter isLine).findSome? subs? := by
    induction above with
    | nil => rfl
    | cons line above ih =>
      rw [List.findSome?_cons, List.map_cons, List.filter_cons, given?, ih]
      by_cases hline : isLine (trim line)
      · rw [if_pos hline, if_pos hline, List.findSome?_cons]
      · rw [if_neg hline, if_neg hline]
  rw [hcandidates, findSome?_eq_find?_bind]
  unfold subsAbove
  generalize (above.map trim).filter isLine = candidates
  dsimp only
  cases hfound : candidates.find? fun line => (subs? line).isSome with
  | some line => rfl
  | none =>
    -- The first candidate is no better than any other if none has an expression.
    cases candidates with
    | nil => rfl
    | cons line candidates =>
      have hline := List.find?_eq_none.mp hfound line List.mem_cons_self
      simpa using hline

theorem not_isDelimiter_of_given? {expr : Text} (h : given? line = some expr) :
    ¬isDelimiter line := by
  have hline : isLine (trim line) := by
    by_contra hline
    rw [given?, if_neg hline] at h
    cases h
  intro hdelimiter
  rw [isDelimiter, Bool.or_eq_true, isCommentFence, beq_iff_eq] at hdelimiter
  rcases hdelimiter with hcomment | hfence
  · rw [hcomment] at hline
    exact absurd hline (by decide)
  · obtain ⟨fence, hfence⟩ := Option.isSome_iff_exists.mp hfence
    have hdelimiter : fence.delimiter = trim line := by
      simpa using List.find?_some hfence
    rw [← hdelimiter] at hline
    cases fence <;> exact absurd hline (by decide)

end Attribute

/-- The fence at line `o` has its expression from line `j`: one of the two lines above, and the
nearest that gives one. -/
structure IsSource (lines : List Text) (o : ℕ) (expr : Text) (j : ℕ) : Prop where
  above : j < o
  near : o ≤ j + 2
  given : lines[j]?.bind Attribute.given? = some expr
  nearest : ∀ i, j < i → i < o → lines[i]?.bind Attribute.given? = none

/-- Looking back over `k` lines from line `o` finds the nearest line for which there is something to
be found. -/
theorem findSome?_back_iff {find : Text → Option Text} {found : Text} {o k : ℕ}
    (ho : o ≤ lines.length) : ((lines.take o).reverse.take k).findSome? find = some found ↔
      ∃ j, j < o ∧ o ≤ j + k ∧ lines[j]?.bind find = some found ∧
        ∀ i, j < i → i < o → lines[i]?.bind find = none := by
  induction k generalizing o with
  | zero =>
    refine iff_of_false (by simp) ?_
    rintro ⟨j, hj, hk, -⟩
    omega
  | succ k ih =>
    cases o with
    | zero =>
      refine iff_of_false (by simp) ?_
      rintro ⟨j, hj, -⟩
      exact absurd hj (Nat.not_lt_zero j)
    | succ o =>
      have hlast : lines[o]?.bind find = find lines[o] := by
        rw [List.getElem?_eq_getElem ho, Option.bind_some]
      rw [List.take_succ_eq_append_getElem ho, List.reverse_concat, List.take_succ_cons,
        List.findSome?_cons]
      cases hfind : find lines[o] with
      | some last =>
        constructor
        · intro h
          exact ⟨o, by omega, by omega, by rw [hlast, hfind, ← h], fun i _ _ => by omega⟩
        · rintro ⟨j, hj, -, hfound, hnearest⟩
          -- Any other line would have the last one behind it.
          obtain rfl : j = o := by
            by_contra hne
            have hnone := hnearest o (by omega) (by omega)
            rw [hlast, hfind] at hnone
            cases hnone
          rw [← hfind, ← hlast, hfound]
      | none =>
        dsimp only
        rw [ih (by omega)]
        constructor
        · rintro ⟨j, hj, hk, hfound, hnearest⟩
          refine ⟨j, by omega, by omega, hfound, fun i hi hio => ?_⟩
          obtain hio | rfl := Nat.lt_succ_iff_lt_or_eq.mp hio
          · exact hnearest i hi hio
          · rw [hlast, hfind]
        · rintro ⟨j, hj, hk, hfound, hnearest⟩
          have hne : j ≠ o := by
            rintro rfl
            rw [hlast, hfind] at hfound
            cases hfound
          exact ⟨j, by omega, by omega, hfound, fun i hi hio => hnearest i hi (by omega)⟩

theorem subsAbove_eq_some_iff {o : ℕ} (ho : o ≤ lines.length) {expr : Text} :
    Attribute.subsAbove (Scan.after (lines.take o)).above = some expr ↔
      ∃ j, IsSource lines o expr j := by
  rw [Attribute.subsAbove_eq_findSome?, Scan.above_after, findSome?_back_iff ho]
  exact exists_congr fun j =>
    ⟨fun ⟨habove, hnear, hgiven, hnearest⟩ => ⟨habove, hnear, hgiven, hnearest⟩,
      fun hj => ⟨hj.above, hj.near, hj.given, hj.nearest⟩⟩

theorem IsSource.exists_line {o j : ℕ} {expr : Text} (h : IsSource lines o expr j) :
    ∃ line, lines[j]? = some line ∧ ¬isDelimiter line := by
  obtain ⟨line, hline, hgiven⟩ := Option.bind_eq_some_iff.mp h.given
  exact ⟨line, hline, Attribute.not_isDelimiter_of_given? hgiven⟩

/-- The line that a fence in prose has its expression from is prose itself, unless the line between
the two, if there is one, closes what it stands in. -/
theorem IsSource.region_eq_prose_iff {o j : ℕ} {expr : Text} (h : IsSource lines o expr j)
    (ho : o ≤ lines.length) (hprose : (Scan.after (lines.take o)).region = .prose) :
    (Scan.after (lines.take j)).region = .prose ↔ ¬lines[o - 1]?.any isDelimiter := by
  obtain ⟨line, hline, hplain⟩ := h.exists_line
  -- The region does not change over the attribute line.
  have hsame : (Scan.after (lines.take j)).region = (Scan.after (lines.take (j + 1))).region := by
    rw [Scan.region_take_succ hline, Scan.regionAfter_of_not_isDelimiter _ hplain]
  rw [hsame]
  obtain rfl | rfl : o = j + 1 ∨ o = j + 2 := by have := h.above; have := h.near; omega
  · simp [hprose, hline, hplain]
  · have hbetween : lines[j + 1]? = some lines[j + 1] := List.getElem?_eq_getElem ho
    rw [Scan.region_take_succ hbetween] at hprose
    simp only [Nat.add_one_sub_one, hbetween, Option.any_some]
    refine ⟨fun hj hdelimiter => Scan.regionAfter_ne_prose hj hdelimiter hprose, fun hplain => ?_⟩
    rwa [Scan.regionAfter_of_not_isDelimiter _ hplain] at hprose

/-- The expression of an open block is that of the nearest attribute line, of the two lines above
its fence, that gives one. That line is prose exactly if the line right above the fence closes
neither a comment nor another block. -/
theorem subs_source_live_iff {expr : Text} (h : blockAt lines n = some b)
    (hsubs : b.subs = some expr) :
    ∃ j, IsSource lines b.line expr j ∧
      ((Scan.after (lines.take j)).region = .prose ↔ ¬lines[b.line - 1]?.any isDelimiter) := by
  obtain ⟨-, hprose, ⟨line, hline, -⟩, hread⟩ := opened_of_blockAt h
  have hopen : b.line ≤ lines.length := Nat.le_of_lt (List.getElem?_eq_some_iff.mp hline).1
  obtain ⟨j, hj⟩ := (subsAbove_eq_some_iff hopen).mp (hread.symm.trans hsubs)
  exact ⟨j, hj, hj.region_eq_prose_iff hopen hprose⟩

def titled : List Text := ["[source,subs=\"+r\"]", ".Title", "----"]

theorem subs_source_live_titled : ∃ b j, blockAt titled 3 = some b ∧
    b.subs = some ("+r" : Text) ∧ IsSource titled b.line "+r" j ∧
      ((Scan.after (titled.take j)).region = .prose ↔ ¬titled[b.line - 1]?.any isDelimiter) := by
  have hblock : blockAt titled 3 = some ⟨.listing, 2, some ("+r" : Text)⟩ := by decide
  obtain ⟨j, hj⟩ := subs_source_live_iff hblock rfl
  exact ⟨_, j, hblock, rfl, hj⟩

/-- An expression that a comment has swallowed is read where the comment ends right above the
fence. -/
theorem subs_source_commented :
    ¬∀ (lines : List Text) (n : ℕ) (b : Block) (expr : Text), blockAt lines n = some b →
      b.subs = some expr →
        ∃ j, IsSource lines b.line expr j ∧ (Scan.after (lines.take j)).region = .prose := by
  intro h
  obtain ⟨j, hj, hprose⟩ := h ["////", "[subs=normal]", "////", "----"] 4
    ⟨.listing, 3, some ("normal" : Text)⟩ "normal" (by decide) rfl
  have hbelow : j < 3 := hj.above
  have habove : 3 ≤ j + 2 := hj.near
  obtain rfl | rfl : j = 1 ∨ j = 2 := by omega
  · exact absurd hprose (by decide)
  · exact absurd hprose (by decide)

end Errata.Markup
