import Errata.Edit
import Errata.Proofs.Text.Lines
import Errata.Proofs.Text.Trim
import Mathlib.Data.List.Basic
import Mathlib.Data.List.Induction

/-!
# Edits line by line

The pass of `Edit.pass` works on one buffer from the bottom up. Here the same pass is described
line by line: every line, and the place behind the last one, has a block of its own, which starts
as that line alone and takes the fixes anchored there in the order of the pass. The buffer at the
end is the blocks one after the other, and a fix is made exactly if it can be made in its block.
-/
namespace Errata.Edit

/-- A line, and what it is without the carriage returns at its end. -/
def IsCleared (part line : Text) : Prop :=
  line.getLast? ≠ some '\r' ∧ ∃ n, part = line ++ List.replicate n '\r'

theorem dropEndWhile_eq_iff {part line : Text} :
    Text.dropEndWhile (· == '\r') part = line ↔ IsCleared part line := by
  constructor
  · rintro rfl
    refine ⟨fun hlast => ?_, (part.rtakeWhile (· == '\r')).length, ?_⟩
    · change (part.rdropWhile (· == '\r')).getLast? = some '\r' at hlast
      have hne : part.rdropWhile (· == '\r') ≠ [] := List.ne_nil_of_mem (List.mem_of_getLast? hlast)
      have hkept := List.rdropWhile_last_not (· == '\r') part hne
      rw [List.getLast?_eq_some_getLast hne, Option.some_inj] at hlast
      simp [hlast] at hkept
    · have hreturns : ∀ c ∈ part.rtakeWhile (· == '\r'), c = '\r' := fun c hc => by
        simpa using List.mem_rtakeWhile_imp hc
      rw [← List.eq_replicate_of_mem hreturns]
      exact List.rdropWhile_append_rtakeWhile.symm
  · rintro ⟨hlast, n, rfl⟩
    have hkept : ∀ c, line.getLast? = some c → ¬(c == '\r') = true := by
      rintro c hc hreturn
      exact hlast (by rw [hc, beq_iff_eq.mp hreturn])
    rw [Text.dropEndWhile_append hkept]
    simp [Text.dropEndWhile]

/-- The lines that a fix puts in are the parts of its replacement between the newlines, each without
the carriage returns at its end. There is no other list of lines of which this can be said. -/
theorem newLines_eq_iff {f : Fix} {ls : List Text} :
    newLines f = ls ↔ ∃ parts : List Text, parts ≠ [] ∧ (∀ part ∈ parts, '\n' ∉ part) ∧
      f.replacement = List.intercalate ['\n'] parts ∧ List.Forall₂ IsCleared parts ls := by
  constructor
  · rintro rfl
    refine ⟨f.replacement.splitOn '\n', List.splitOn_ne_nil _ _,
      fun part => Text.not_mem_of_mem_splitOn, (List.intercalate_splitOn _).symm, ?_⟩
    rw [newLines, List.forall₂_map_right_iff, List.forall₂_same]
    exact fun part _ => dropEndWhile_eq_iff.mp rfl
  · rintro ⟨parts, hne, hparts, hreplacement, hcleared⟩
    rw [newLines, hreplacement, List.splitOn_intercalate _ hparts hne, ← List.forall₂_eq_eq_eq,
      List.forall₂_map_left_iff]
    exact hcleared.imp fun _ _ => dropEndWhile_eq_iff.mpr

/-- One fix on the lines that stand in the place of the line it is anchored to. -/
def makeInBlock? (f : Fix) (block : List Text) : Option (List Text) :=
  match f.placement, block with
  | .insertLine _, _ | .insertAbove, _ => some (newLines f ++ block)
  | .replaceLine _, [] | .atMatch, [] => none
  | .replaceLine _, _ :: rest => some (newLines f ++ rest)
  | .atMatch, line :: rest =>
    (overwriteNear? f.needle f.violation.col f.replacement line).map (· :: rest)

/-- The block of line `i` after some fixes: those anchored at `i`, one after the other, on the line
as it was. Behind the last line the block starts empty. -/
def block (lines : List Text) (fixes : List Fix) (i : Nat) : List Text :=
  (fixes.filter (·.row = i)).foldl (fun b f => (makeInBlock? f b).getD b) lines[i]?.toList

def blocks (lines : List Text) (fixes : List Fix) : List Text :=
  (List.range (lines.length + 1)).flatMap (block lines fixes)

/-- The fix can be made in its block as the fixes before it have left that block. -/
def succeeds (lines : List Text) (before : List Fix) (f : Fix) : Bool :=
  f.row ≤ lines.length && (makeInBlock? f (block lines before f.row)).isSome

theorem precedes_trans (a b c : Fix) (hab : precedes a b) (hbc : precedes b c) :
    precedes a c := by
  unfold precedes at *
  grind

theorem precedes_total (a b : Fix) : precedes a b || precedes b a := by
  unfold precedes
  grind

theorem row_le_of_precedes {a b : Fix} (h : precedes a b) : b.row ≤ a.row := by
  unfold precedes at h
  grind

theorem order_perm (fixes : List Fix) : (order fixes).Perm fixes := List.mergeSort_perm _ _

theorem order_rows (fixes : List Fix) : (order fixes).Pairwise fun a b => b.row ≤ a.row :=
  (List.pairwise_mergeSort precedes_trans precedes_total fixes).imp row_le_of_precedes

theorem newLines_ne_nil (f : Fix) : newLines f ≠ [] := by
  simp [newLines]

theorem makeInBlock?_ne_nil {f : Fix} {b b' : List Text} (h : makeInBlock? f b = some b') :
    b' ≠ [] := by
  have hn := newLines_ne_nil f
  unfold makeInBlock? at h
  split at h
  · simp [← Option.some.inj h, hn]
  · simp [← Option.some.inj h, hn]
  · simp at h
  · simp at h
  · simp [← Option.some.inj h, hn]
  · obtain ⟨line, -, rfl⟩ := Option.map_eq_some_iff.mp h
    simp

/-- Lines above the anchor and below its block are left alone. Nothing may stand below an empty
block: only the one behind the last line is empty. -/
theorem make?_append (f : Fix) (above b below : List Text) (hrow : f.row = above.length)
    (hb : b = [] → below = []) :
    make? f (above ++ b ++ below) = (makeInBlock? f b).map (above ++ · ++ below) := by
  unfold make? makeInBlock? insertBefore?
  cases hp : f.placement with
  | insertLine n | insertAbove =>
    simp only [Fix.row, hp] at hrow
    simp [hrow]
  | replaceLine n =>
    simp only [Fix.row, hp] at hrow
    cases b with
    | nil => simp [hrow, hb rfl]
    | cons line rest => simp [hrow]
  | atMatch =>
    simp only [Fix.row, hp] at hrow
    cases b with
    | nil => simp [hrow, hb rfl]
    | cons line rest =>
      simp only [hrow]
      cases h : overwriteNear? f.needle f.violation.col f.replacement line <;> simp [h]

theorem make?_beyond (f : Fix) (lines : List Text) (h : lines.length < f.row) :
    make? f lines = none := by
  unfold make? insertBefore?
  cases hp : f.placement <;> simp only [Fix.row, hp] at h
  · simp [List.getElem?_eq_none (Nat.le_of_lt h)]
  all_goals simp; omega

theorem block_of_row_ne {lines : List Text} {fixes : List Fix} {i : ℕ}
    (h : ∀ f ∈ fixes, f.row ≠ i) : block lines fixes i = lines[i]?.toList := by
  have hf : fixes.filter (·.row = i) = [] := by simpa using h
  simp [block, hf]

theorem block_append_ne {lines : List Text} {fixes : List Fix} {f : Fix} {i : ℕ}
    (h : f.row ≠ i) : block lines (fixes ++ [f]) i = block lines fixes i := by
  simp [block, List.filter_append, h]

theorem block_append_self (lines : List Text) (fixes : List Fix) (f : Fix) :
    block lines (fixes ++ [f]) f.row =
      (makeInBlock? f (block lines fixes f.row)).getD (block lines fixes f.row) := by
  simp [block, List.filter_append, List.foldl_append]

theorem block_ne_nil {lines : List Text} (fixes : List Fix) {i : ℕ} (h : i < lines.length) :
    block lines fixes i ≠ [] := by
  induction fixes using List.reverseRecOn with
  | nil => simp [block, h]
  | append_singleton fixes f ih =>
    by_cases hf : f.row = i
    · subst hf
      rw [block_append_self]
      cases hm : makeInBlock? f (block lines fixes f.row) with
      | none => simpa using ih
      | some b => simpa using makeInBlock?_ne_nil hm
    · rwa [block_append_ne hf]

theorem flatMap_getElem? (lines : List Text) (n : ℕ) :
    ((List.range n).flatMap fun i => lines[i]?.toList) = lines.take n := by
  induction n with
  | zero => rfl
  | succ n ih => simp [List.range_succ, List.flatMap_append, ih, List.take_add_one]

theorem flatMap_block_above {lines : List Text} {fixes : List Fix} {n : ℕ}
    (h : ∀ f ∈ fixes, n ≤ f.row) : (List.range n).flatMap (block lines fixes) = lines.take n := by
  rw [← flatMap_getElem?]
  apply List.flatMap_congr
  intro i hi
  apply block_of_row_ne
  intro f hf
  have := h f hf
  have := List.mem_range.mp hi
  omega

theorem blocks_split (lines : List Text) (fixes : List Fix) {n : ℕ} (hn : n ≤ lines.length) :
    blocks lines fixes = (List.range n).flatMap (block lines fixes) ++ block lines fixes n ++
      ((List.range (lines.length - n)).map (n + 1 + ·)).flatMap (block lines fixes) := by
  have hl : lines.length + 1 = n + 1 + (lines.length - n) := by omega
  rw [blocks, hl, List.range_add, List.flatMap_append, List.range_succ, List.flatMap_append]
  simp

theorem blocks_append_of_fails {lines : List Text} {fixes : List Fix} {f : Fix}
    (h : succeeds lines fixes f = false) : blocks lines (fixes ++ [f]) = blocks lines fixes := by
  apply List.flatMap_congr
  intro i hi
  by_cases hf : f.row = i
  · subst hf
    have hle : f.row ≤ lines.length := by simpa [Nat.lt_succ_iff] using hi
    have hm : makeInBlock? f (block lines fixes f.row) = none := by
      simpa [succeeds, hle] using h
    rw [block_append_self, hm, Option.getD_none]
  · exact block_append_ne hf

/-- One step of the pass, when the fixes before it are anchored no higher. -/
theorem make?_blocks {lines : List Text} {fixes : List Fix} {f : Fix}
    (h : ∀ g ∈ fixes, f.row ≤ g.row) :
    make? f (blocks lines fixes) =
      if succeeds lines fixes f then some (blocks lines (fixes ++ [f])) else none := by
  by_cases hle : f.row ≤ lines.length
  · have habove : (List.range f.row).flatMap (block lines fixes) = lines.take f.row :=
      flatMap_block_above h
    have habove' : (List.range f.row).flatMap (block lines (fixes ++ [f])) = lines.take f.row :=
      flatMap_block_above (by simpa [or_imp, forall_and] using h)
    have hbelow : ((List.range (lines.length - f.row)).map (f.row + 1 + ·)).flatMap
        (block lines (fixes ++ [f])) =
        ((List.range (lines.length - f.row)).map (f.row + 1 + ·)).flatMap (block lines fixes) := by
      apply List.flatMap_congr
      intro i hi
      obtain ⟨k, -, rfl⟩ := List.mem_map.mp hi
      exact block_append_ne (by omega)
    have hlast : block lines fixes f.row = [] →
        ((List.range (lines.length - f.row)).map (f.row + 1 + ·)).flatMap (block lines fixes) =
          [] := by
      intro hnil
      have : ¬f.row < lines.length := fun hlt => block_ne_nil fixes hlt hnil
      simp [show lines.length - f.row = 0 by omega]
    rw [blocks_split lines fixes hle, blocks_split lines (fixes ++ [f]) hle, habove, habove',
      hbelow, make?_append f _ _ _ (by simp [hle]) hlast, block_append_self]
    cases hm : makeInBlock? f (block lines fixes f.row) <;> simp [succeeds, hle, hm]
  · have hlines : blocks lines fixes = lines := by
      rw [blocks, flatMap_block_above fun g hg => by have := h g hg; omega,
        List.take_of_length_le (by omega)]
    rw [hlines, make?_beyond f lines (by omega)]
    simp [succeeds, hle]

theorem pass_step {lines : List Text} {fixes : List Fix} {f : Fix} {applied skipped : List Fix}
    (h : ∀ g ∈ fixes, f.row ≤ g.row) :
    Progress.step ⟨blocks lines fixes, applied, skipped⟩ f =
      ⟨blocks lines (fixes ++ [f]), if succeeds lines fixes f then applied ++ [f] else applied,
        if succeeds lines fixes f then skipped else skipped ++ [f]⟩ := by
  rw [Progress.step, make?_blocks h]
  cases hs : succeeds lines fixes f with
  | true => simp
  | false => simp [blocks_append_of_fails hs]

/-- The fixes of a pass whose own step succeeds, or fails, each with those before it. -/
def outcomes (lines : List Text) (fixes : List Fix) (made : Bool) : List Fix :=
  (fixes.zipIdx.filter fun x => succeeds lines (fixes.take x.2) x.1 == made).map Prod.fst

theorem outcomes_append (lines : List Text) (fixes : List Fix) (f : Fix) (made : Bool) :
    outcomes lines (fixes ++ [f]) made =
      if succeeds lines fixes f = made then outcomes lines fixes made ++ [f]
      else outcomes lines fixes made := by
  have hbefore : (fixes.zipIdx.filter fun x =>
      succeeds lines ((fixes ++ [f]).take x.2) x.1 == made) =
      fixes.zipIdx.filter fun x => succeeds lines (fixes.take x.2) x.1 == made := by
    apply List.filter_congr
    intro x hx
    have hlt : x.2 < fixes.length := by
      have := List.snd_lt_of_mem_zipIdx hx
      simpa using this
    rw [List.take_append_of_le_length (Nat.le_of_lt hlt)]
  rw [outcomes, List.zipIdx_append, List.filter_append, List.map_append, hbefore]
  by_cases hs : succeeds lines fixes f = made <;> simp [outcomes, hs]

theorem outcomes_sublist (lines : List Text) (fixes : List Fix) (made : Bool) :
    (outcomes lines fixes made).Sublist fixes := by
  have h := (List.filter_sublist (l := fixes.zipIdx)
    (p := fun x => succeeds lines (fixes.take x.2) x.1 == made)).map Prod.fst
  rwa [List.zipIdx_map_fst] at h

theorem outcomes_perm (lines : List Text) (fixes : List Fix) :
    (outcomes lines fixes true ++ outcomes lines fixes false).Perm fixes := by
  have h := (List.filter_append_perm (fun x => succeeds lines (fixes.take x.2) x.1)
    fixes.zipIdx).map Prod.fst
  rw [List.map_append, List.zipIdx_map_fst] at h
  simpa [outcomes] using h

theorem row_le_of_mem_outcomes {lines : List Text} {fixes : List Fix} {f : Fix}
    (h : f ∈ outcomes lines fixes true) : f.row ≤ lines.length := by
  obtain ⟨x, hx, rfl⟩ := List.mem_map.mp h
  have hs := (List.mem_filter.mp hx).2
  simp only [succeeds, beq_true, Bool.and_eq_true, decide_eq_true_eq] at hs
  exact hs.1

theorem foldl_step_eq (lines : List Text) {fixes : List Fix}
    (h : fixes.Pairwise fun a b => b.row ≤ a.row) :
    fixes.foldl Progress.step ⟨lines, [], []⟩ =
      ⟨blocks lines fixes, outcomes lines fixes true, outcomes lines fixes false⟩ := by
  induction fixes using List.reverseRecOn with
  | nil => simp [blocks, outcomes, flatMap_block_above, List.take_of_length_le]
  | append_singleton fixes f ih =>
    obtain ⟨hpre, -, hlast⟩ := List.pairwise_append.mp h
    rw [List.foldl_append, ih hpre, List.foldl_cons, List.foldl_nil,
      pass_step fun g hg => hlast g hg f (by simp), outcomes_append, outcomes_append]
    cases succeeds lines fixes f <;> simp

theorem pass_eq (lines : List Text) (fixes : List Fix) :
    pass lines fixes = ⟨blocks lines (order fixes), outcomes lines (order fixes) true,
      outcomes lines (order fixes) false⟩ :=
  foldl_step_eq lines (order_rows fixes)

theorem pass_singleton (lines : List Text) (f : Fix) :
    pass lines [f] = Progress.step ⟨lines, [], []⟩ f := by
  rw [pass, order, List.mergeSort_singleton, List.foldl_cons, List.foldl_nil]

theorem apply_perm (content : Text) (fixes : List Fix) :
    ((apply content fixes).applied ++ (apply content fixes).skipped).Perm fixes := by
  have hperm := outcomes_perm (Text.lines content) (order fixes)
  simp only [apply, pass_eq]
  exact hperm.trans (order_perm fixes)

/-- The pass over the whole buffer refines editing every line on its own: the text that comes out
joins the blocks of the lines, and a fix is made exactly if its own step in its block succeeds. No
fix is lost, and none is made behind the end of the text. -/
theorem apply_refines_blocks (content : Text) (fixes : List Fix) :
    let lines := Text.lines content
    let out := apply content fixes
    (pass lines fixes).lines = blocks lines (order fixes) ∧
    out.content = joinLines (terminator content)
      (content.isEmpty || Text.endsInNewline content) (blocks lines (order fixes)) ∧
    out.applied = outcomes lines (order fixes) true ∧
    out.skipped = outcomes lines (order fixes) false ∧
    (∀ f ∈ fixes, lines.length < f.row → f ∈ out.skipped ∧ f ∉ out.applied) ∧
    out.applied.Sublist (order fixes) ∧ out.skipped.Sublist (order fixes) ∧
    (out.applied ++ out.skipped).Perm (order fixes) := by
  intro lines out
  have hpass : pass lines fixes = _ := pass_eq lines fixes
  have happlied : out.applied = outcomes lines (order fixes) true := by
    simp only [out, apply, lines, pass_eq]
  have hskipped : out.skipped = outcomes lines (order fixes) false := by
    simp only [out, apply, lines, pass_eq]
  have hperm : (out.applied ++ out.skipped).Perm (order fixes) := by
    rw [happlied, hskipped]
    exact outcomes_perm lines (order fixes)
  refine ⟨by rw [hpass], ?_, happlied, hskipped, ?_, ?_, ?_, hperm⟩
  · simp only [out, apply, lines, pass_eq]
  · intro f hf hrow
    have hnot : f ∉ out.applied := by
      intro hmem
      rw [happlied] at hmem
      have := row_le_of_mem_outcomes hmem
      omega
    have hmem : f ∈ out.applied ++ out.skipped :=
      hperm.mem_iff.mpr ((order_perm fixes).mem_iff.mpr hf)
    exact ⟨(List.mem_append.mp hmem).resolve_left hnot, hnot⟩
  · rw [happlied]
    exact outcomes_sublist lines (order fixes) true
  · rw [hskipped]
    exact outcomes_sublist lines (order fixes) false

end Errata.Edit
