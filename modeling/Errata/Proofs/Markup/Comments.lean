import Errata.Markup.Block
import Mathlib.Data.List.Basic
import Mathlib.Data.Nat.Bits

/-!
# Comments seen by two scans

`commentLines` goes by the comment delimiters alone, one opening and the next one closing a comment.
`Scan` knows that a delimiter within an open block is content of the block. Which lines the two take
for comment is therefore the same down to the first delimiter that stands in a block, and from there
on it is turned round by every such delimiter.
-/
namespace Errata.Markup

def isCommentFence (line : Text) : Bool := Text.trim line == commentFence

/-- By the delimiters alone, a comment is open behind these lines: their number is odd. -/
def commentOpen (lines : List Text) : Bool := (lines.countP isCommentFence).bodd

theorem commentOpen_nil : commentOpen [] = false := by
  rw [commentOpen, List.countP_nil, Nat.bodd_zero]

theorem commentOpen_cons (line : Text) (lines : List Text) :
    commentOpen (line :: lines) = (isCommentFence line != commentOpen lines) := by
  unfold commentOpen
  rw [List.countP_cons]
  cases isCommentFence line <;> simp

theorem commentOpen_append (above below : List Text) :
    commentOpen (above ++ below) = (commentOpen above != commentOpen below) := by
  rw [commentOpen, List.countP_append, Nat.bodd_add]
  rfl

theorem markComments_cons (inside : Bool) (line : Text) (lines : List Text) :
    markComments inside (line :: lines) =
      (inside || isCommentFence line) :: markComments (inside != isCommentFence line) lines :=
  rfl

theorem markComments_append (inside : Bool) (above below : List Text) :
    markComments inside (above ++ below) =
      markComments inside above ++ markComments (inside != commentOpen above) below := by
  induction above generalizing inside with
  | nil => simp [markComments, commentOpen]
  | cons line above ih =>
    rw [List.cons_append, markComments_cons, ih, commentOpen_cons, markComments_cons,
      List.cons_append, Bool.bne_assoc]

theorem length_markComments (inside : Bool) (lines : List Text) :
    (markComments inside lines).length = lines.length := by
  induction lines generalizing inside with
  | nil => rfl
  | cons line lines ih => rw [markComments_cons, List.length_cons, List.length_cons, ih]

theorem isCommentFence_congr {line line' : Text} (h : Text.trim line = Text.trim line') :
    isCommentFence line = isCommentFence line' := by
  rw [isCommentFence, h, isCommentFence]

theorem markComments_congr {lines lines' : List Text}
    (h : lines.map Text.trim = lines'.map Text.trim) (inside : Bool) :
    markComments inside lines = markComments inside lines' := by
  induction lines generalizing lines' inside with
  | nil =>
    cases lines' with
    | nil => rfl
    | cons line' lines' => cases h
  | cons line lines ih =>
    cases lines' with
    | nil => cases h
    | cons line' lines' =>
      obtain ⟨hline, hlines⟩ := List.cons.inj h
      rw [markComments_cons, markComments_cons, ih hlines, isCommentFence_congr hline]

/-- A line is marked if a comment is open above it or if it is a delimiter itself. -/
theorem getElem?_commentLines (lines : List Text) (i : ℕ) :
    (commentLines lines)[i]? =
      lines[i]?.map fun line => commentOpen (lines.take i) || isCommentFence line := by
  by_cases hi : i < lines.length
  · have hsplit : lines = lines.take i ++ lines[i] :: lines.drop (i + 1) := by simp
    have hlength : (markComments false (lines.take i)).length = i := by
      simp [length_markComments, Nat.le_of_lt hi]
    conv_lhs => rw [hsplit, commentLines, markComments_append, markComments_cons]
    rw [List.getElem?_append_right (by omega), hlength, List.getElem?_eq_getElem hi]
    simp
  · have hlength : (commentLines lines).length ≤ i := by
      rw [commentLines, length_markComments]
      omega
    rw [List.getElem?_eq_none hlength, List.getElem?_eq_none (by omega), Option.map_none]

namespace Region

def isComment : Region → Bool
  | .comment => true
  | .prose | .block _ => false

def isBlock : Region → Bool
  | .block _ => true
  | .prose | .comment => false

/-- A line in this region is part of a comment: its content or one of its delimiters. -/
def takesForComment (r : Region) (line : Text) : Bool :=
  r.isComment || (!r.isBlock && isCommentFence line)

end Region

namespace Scan

def commentLines (lines : List Text) : List Bool :=
  lines.mapIdx fun i line => (after (lines.take i)).region.takesForComment line

theorem after_append_singleton (lines : List Text) (line : Text) :
    after (lines ++ [line]) = (after lines).step line := by
  rw [after, List.foldl_append, List.foldl_cons, List.foldl_nil, after]

/-- A delimiter changes between prose and comment, and in a block it changes nothing. -/
theorem isComment_step (s : Scan) (line : Text) :
    (s.step line).region.isComment =
      (s.region.isComment != (!s.region.isBlock && isCommentFence line)) := by
  simp only [step, regionAfter, isCommentFence, beq_eq_decide]
  cases s.region with
  | prose =>
    by_cases hfence : Text.trim line = commentFence
    · simp [hfence, Region.isComment, Region.isBlock]
    · cases Fence.ofDelimiter? (Text.trim line) <;>
        simp [hfence, Region.isComment, Region.isBlock]
  | comment =>
    by_cases hfence : Text.trim line = commentFence <;>
      simp [hfence, Region.isComment, Region.isBlock]
  | block b =>
    by_cases hend : Text.trim line = b.fence.delimiter <;>
      simp [hend, Region.isComment, Region.isBlock]

end Scan

theorem isSome_blockAt (lines : List Text) (i : ℕ) :
    (blockAt lines i).isSome = (Scan.after (lines.take i)).region.isBlock := by
  unfold blockAt
  cases (Scan.after (lines.take i)).region <;> rfl

/-- Line `i` is a comment delimiter that stands in an open block. -/
def isHiddenFence (lines : List Text) (i : ℕ) : Bool :=
  (blockAt lines i).isSome && lines[i]?.any isCommentFence

/-- How many of the first `n` lines are comment delimiters that stand in open blocks. -/
def hiddenFences (lines : List Text) (n : ℕ) : ℕ :=
  (List.range n).countP (isHiddenFence lines)

theorem bodd_hiddenFences_succ (lines : List Text) (n : ℕ) :
    (hiddenFences lines (n + 1)).bodd =
      ((hiddenFences lines n).bodd != isHiddenFence lines n) := by
  rw [hiddenFences, List.range_succ, List.countP_append, List.countP_singleton, ← hiddenFences]
  cases isHiddenFence lines n <;> simp

/-- Both scans see the same of an open comment, turned round once for every delimiter in a block. -/
theorem commentOpen_take (lines : List Text) (n : ℕ) :
    commentOpen (lines.take n) =
      ((Scan.after (lines.take n)).region.isComment != (hiddenFences lines n).bodd) := by
  induction n with
  | zero => simp [commentOpen, hiddenFences, Scan.after, Scan.start, Region.isComment]
  | succ n ih =>
    rw [bodd_hiddenFences_succ, isHiddenFence, isSome_blockAt, List.take_add_one]
    cases lines[n]? with
    | none => simpa using ih
    | some line =>
      rw [Option.toList_some, Option.any_some, commentOpen_append, ih,
        Scan.after_append_singleton, Scan.isComment_step, commentOpen_cons]
      -- The line counts for one scan or for the other, as it stands in a block or not.
      cases (Scan.after (lines.take n)).region.isComment <;>
        cases (Scan.after (lines.take n)).region.isBlock <;>
        cases isCommentFence line <;> simp [commentOpen]

theorem getElem?_scan_commentLines (lines : List Text) (i : ℕ) :
    (Scan.commentLines lines)[i]? =
      lines[i]?.map (Scan.after (lines.take i)).region.takesForComment := by
  rw [Scan.commentLines, List.getElem?_mapIdx]

theorem agree_at_iff {lines : List Text} {i : ℕ} (hi : i < lines.length) :
    (commentLines lines)[i]? = (Scan.commentLines lines)[i]? ↔
      if (hiddenFences lines i).bodd then isCommentFence lines[i] ∧ blockAt lines i = none
      else ¬isHiddenFence lines i := by
  rw [getElem?_commentLines, getElem?_scan_commentLines, commentOpen_take, isHiddenFence,
    ← Option.isNone_iff_eq_none, ← Option.not_isSome, isSome_blockAt, List.getElem?_eq_getElem hi,
    Option.map_some, Option.map_some, Option.any_some, Region.takesForComment]
  generalize isCommentFence lines[i] = fence
  cases (Scan.after (lines.take i)).region <;> cases (hiddenFences lines i).bodd <;>
    cases fence <;> simp [Region.isComment, Region.isBlock]

theorem hiddenFences_eq_zero {lines : List Text} {n : ℕ} (h : ∀ i < n, ¬isHiddenFence lines i) :
    hiddenFences lines n = 0 := by
  simpa [hiddenFences, List.countP_eq_zero] using h

theorem lt_length_of_isHiddenFence {lines : List Text} {i : ℕ} (h : isHiddenFence lines i) :
    i < lines.length := by
  by_contra hi
  rw [isHiddenFence, List.getElem?_eq_none (by omega), Option.any_none, Bool.and_false] at h
  cases h

theorem commentLines_eq_iff {lines : List Text} :
    commentLines lines = Scan.commentLines lines ↔ ∀ i, ¬isHiddenFence lines i := by
  constructor
  · -- The first delimiter in a block is the first line on which the scans differ.
    intro heq i
    induction i using Nat.strongRecOn with
    | _ i ih =>
      intro hhidden
      have hagree := (agree_at_iff (lt_length_of_isHiddenFence hhidden)).mp (by rw [heq])
      rw [hiddenFences_eq_zero ih, Nat.bodd_zero] at hagree
      exact hagree hhidden
  · intro hnone
    apply List.ext_getElem?
    intro i
    by_cases hi : i < lines.length
    · rw [agree_at_iff hi, hiddenFences_eq_zero fun j _ => hnone j, Nat.bodd_zero]
      exact hnone i
    · rw [getElem?_commentLines, getElem?_scan_commentLines, List.getElem?_eq_none (by omega),
        Option.map_none, Option.map_none]

/-- Behind an even number of delimiters in blocks the scans differ on no other line than on one more
of them; behind an odd number they agree on no other line than on a delimiter outside of blocks. So
they mark the same lines of a document exactly if no comment delimiter stands in a block. -/
theorem comment_scans_agree_iff (lines : List Text) :
    (∀ i : Fin lines.length, (commentLines lines)[i]? = (Scan.commentLines lines)[i]? ↔
      if (hiddenFences lines i).bodd then isCommentFence lines[i] ∧ blockAt lines i = none
      else ¬isHiddenFence lines i) ∧
    (commentLines lines = Scan.commentLines lines ↔ ∀ i, ¬isHiddenFence lines i) :=
  ⟨fun i => agree_at_iff i.isLt, commentLines_eq_iff⟩

/-- A comment delimiter in a listing: from it to the end of the document one scan sees a comment
and the other one none. -/
theorem comment_scans_differ : ¬∀ (lines : List Text) (i : ℕ),
    (commentLines lines)[i]? = (Scan.commentLines lines)[i]? := by
  intro h
  have hdiffer : (commentLines ["----", "////", "----", "text"])[3]? ≠
      (Scan.commentLines ["----", "////", "----", "text"])[3]? := by
    decide +kernel
  exact hdiffer (h _ 3)

end Errata.Markup
