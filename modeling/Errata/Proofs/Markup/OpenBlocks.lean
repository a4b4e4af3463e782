import Errata.Proofs.Markup.Blocks

/-!
# Where a block is open

A block is open from behind its opening fence up to the next line that equals its delimiter, and
nowhere else. What stands in between is content, whatever it would be outside: fences of the other
kinds and comment delimiters included.
-/
namespace Errata.Markup

open Text

variable {lines : List Text} {n : ℕ} {b : Block}

def IsDelimiterAt (lines : List Text) (fence : Fence) (i : ℕ) : Prop :=
  lines[i]?.map trim = some fence.delimiter

instance (lines : List Text) (fence : Fence) (i : ℕ) : Decidable (IsDelimiterAt lines fence i) :=
  inferInstanceAs (Decidable (_ = _))

/-- A comment is open at line `n`, as the scan that knows of blocks sees it. -/
def commentAt (lines : List Text) (n : ℕ) : Bool := (Scan.after (lines.take n)).region.isComment

/-- Block `b` is what the fence in its line opens, and it is still open at line `n`. -/
structure IsOpenSince (lines : List Text) (b : Block) (n : ℕ) : Prop where
  before : b.line < n
  opening : IsDelimiterAt lines b.fence b.line
  unopened : blockAt lines b.line = none
  uncommented : commentAt lines b.line = false
  undelimited : ∀ i, b.line < i → i < n → ¬IsDelimiterAt lines b.fence i
  throughout : ∀ m, b.line < m → m ≤ n → blockAt lines m = some b

theorem region_eq_prose_iff :
    (Scan.after (lines.take n)).region = .prose ↔
      blockAt lines n = none ∧ commentAt lines n = false := by
  unfold blockAt commentAt
  cases (Scan.after (lines.take n)).region <;> simp [Region.isComment]

theorem ofDelimiter?_delimiter (fence : Fence) : Fence.ofDelimiter? fence.delimiter = some fence := by
  cases fence <;> decide

theorem ofDelimiter?_eq_some_iff {line : Text} {fence : Fence} :
    Fence.ofDelimiter? line = some fence ↔ line = fence.delimiter := by
  constructor
  · intro h
    have hfence : fence.delimiter = line := by simpa using List.find?_some h
    exact hfence.symm
  · rintro rfl
    exact ofDelimiter?_delimiter fence

theorem blockAt_succ_of_fence {fence : Fence} (hfence : IsDelimiterAt lines fence n)
    (hprose : (Scan.after (lines.take n)).region = .prose) :
    blockAt lines (n + 1) =
      some ⟨fence, n, Attribute.subsAbove (Scan.after (lines.take n)).above⟩ := by
  obtain ⟨line, hline, htrim⟩ := Option.map_eq_some_iff.mp hfence
  have hcomment : fence.delimiter ≠ commentFence := by cases fence <;> decide
  rw [blockAt_eq_some_iff, Scan.region_take_succ hline, Scan.regionAfter, hprose]
  simp only [htrim, if_neg hcomment, ofDelimiter?_delimiter, Scan.index_after_take hline]

theorem blockAt_succ_of_content (h : blockAt lines n = some b)
    (hcontent : ¬IsDelimiterAt lines b.fence n) : blockAt lines (n + 1) = some b := by
  cases hline : lines[n]? with
  | none => rwa [blockAt_succ_of_none hline]
  | some line =>
    have hne : trim line ≠ b.fence.delimiter := by
      intro htrim
      exact hcontent (by rw [IsDelimiterAt, hline, Option.map_some, htrim])
    rw [blockAt_eq_some_iff] at h ⊢
    rw [Scan.region_take_succ hline, Scan.regionAfter, h]
    exact if_neg hne

theorem blockAt_succ_of_delimiter (h : blockAt lines n = some b)
    (hend : IsDelimiterAt lines b.fence n) : blockAt lines (n + 1) = none := by
  obtain ⟨line, hline, htrim⟩ := Option.map_eq_some_iff.mp hend
  have hregion := blockAt_eq_some_iff.mp h
  refine (region_eq_prose_iff.mp ?_).1
  rw [Scan.region_take_succ hline, Scan.regionAfter, hregion]
  exact if_pos htrim

/-- A block stays open as long as no line equals its delimiter. -/
theorem blockAt_of_content {o m : ℕ} (h : blockAt lines (o + 1) = some b) (hm : o < m)
    (hcontent : ∀ i, o < i → i < m → ¬IsDelimiterAt lines b.fence i) :
    blockAt lines m = some b := by
  induction hm with
  | refl => exact h
  | @step m hm ih =>
    have hopen := ih fun i hi him => hcontent i hi (by omega)
    exact blockAt_succ_of_content hopen (hcontent m hm (Nat.lt_succ_self m))

/-- Between the opening fence of an open block and the line at which it is open no line equals its
delimiter. -/
theorem not_isDelimiterAt_of_blockAt (h : blockAt lines n = some b) {i : ℕ} (hi : b.line < i)
    (hin : i < n) : ¬IsDelimiterAt lines b.fence i := by
  induction n with
  | zero => cases h
  | succ n ih =>
    cases hline : lines[n]? with
    | none =>
      rw [blockAt_succ_of_none hline] at h
      obtain hin | rfl := Nat.lt_succ_iff_lt_or_eq.mp hin
      · exact ih h hin
      · simp [IsDelimiterAt, hline]
    | some line =>
      have hregion := blockAt_eq_some_iff.mp h
      rw [Scan.region_take_succ hline] at hregion
      rcases Scan.regionAfter_eq_block hregion with hopen | ⟨-, -, hb⟩
      · -- The block was open at the line before, which therefore has not closed it.
        have hbefore := blockAt_eq_some_iff.mpr hopen
        obtain hin | rfl := Nat.lt_succ_iff_lt_or_eq.mp hin
        · exact ih hbefore hin
        · intro hend
          rw [blockAt_succ_of_delimiter hbefore hend] at h
          cases h
      · -- The line before has opened it, so there is no line in between.
        have hindex : b.line = n := (congrArg Block.line hb).trans (Scan.index_after_take hline)
        omega

theorem isOpenSince_of_blockAt (h : blockAt lines n = some b) : IsOpenSince lines b n := by
  obtain ⟨hbefore, hprose, ⟨line, hline, hfence⟩, hsubs⟩ := opened_of_blockAt h
  obtain ⟨hunopened, huncommented⟩ := region_eq_prose_iff.mp hprose
  have hopening : IsDelimiterAt lines b.fence b.line := by
    rw [IsDelimiterAt, hline, Option.map_some, ofDelimiter?_eq_some_iff.mp hfence]
  have hcontent : ∀ i, b.line < i → i < n → ¬IsDelimiterAt lines b.fence i :=
    fun i hi hin => not_isDelimiterAt_of_blockAt h hi hin
  have hfirst : blockAt lines (b.line + 1) = some b := by
    rw [blockAt_succ_of_fence hopening hprose, ← hsubs]
  exact {
    before := hbefore
    opening := hopening
    unopened := hunopened
    uncommented := huncommented
    undelimited := hcontent
    throughout := fun m hm hmn =>
      blockAt_of_content hfirst hm fun i hi him => hcontent i hi (Nat.lt_of_lt_of_le him hmn) }

/-- Which block is open at a line is a matter of the lines above it. An open block is the interval
behind the delimiter that has opened it outside of blocks and comments. Conversely such a delimiter
opens a block, which is open up to the next line that equals the delimiter, that line included, and
closed right behind it. -/
theorem open_blocks_are_intervals (lines : List Text) (n : ℕ) :
    (∀ lines', lines'.take n = lines.take n → blockAt lines' n = blockAt lines n) ∧
    (∀ b, blockAt lines n = some b → IsOpenSince lines b n) ∧
    ∀ fence, IsDelimiterAt lines fence n → blockAt lines n = none → commentAt lines n = false →
      ∃ b, b.fence = fence ∧ b.line = n ∧
        (∀ m, n < m → (∀ i, n < i → i < m → ¬IsDelimiterAt lines fence i) →
          blockAt lines m = some b) ∧
        ∀ c, n < c → IsDelimiterAt lines fence c →
          (∀ i, n < i → i < c → ¬IsDelimiterAt lines fence i) → blockAt lines (c + 1) = none := by
  refine ⟨fun lines' htake => ?_, fun b h => isOpenSince_of_blockAt h, ?_⟩
  · rw [blockAt, htake, blockAt]
  · intro fence hfence hblock hcomment
    have hfirst := blockAt_succ_of_fence hfence (region_eq_prose_iff.mpr ⟨hblock, hcomment⟩)
    refine ⟨_, rfl, rfl, fun m hm hcontent => blockAt_of_content hfirst hm hcontent, ?_⟩
    intro c hc hend hcontent
    exact blockAt_succ_of_delimiter (blockAt_of_content hfirst hc hcontent) hend

/-- A listing with a fence of another kind and a comment delimiter for content. -/
theorem open_blocks_are_intervals_listing :
    let lines : List Text := ["----", "....", "////", "----", "text"]
    ∃ b, blockAt lines 3 = some b ∧ IsOpenSince lines b 3 ∧ blockAt lines 4 = none := by
  intro lines
  have hblock : blockAt lines 3 = some ⟨.listing, 0, none⟩ := by decide
  have hopen := (open_blocks_are_intervals lines 3).2.1 _ hblock
  obtain ⟨-, -, -, -, hclosed⟩ :=
    (open_blocks_are_intervals lines 0).2.2 .listing (by decide) (by decide) (by decide)
  exact ⟨_, hblock, hopen, hclosed 3 (by decide) (by decide) hopen.undelimited⟩

end Errata.Markup
