import Errata.Proofs.Edit.Blocks
import Errata.Proofs.Text.Lines

/-!
# Lines that no fix touches

A line that no fix replaces or rewrites stands in the outcome where it stood, below the lines that
were put in above it. Its terminator is the one that the whole outcome is joined with: it has kept
its own only if that is the same, so a text with both terminators does not even survive a pass in
which no fix is made.
-/
namespace Errata.Edit

open Text (typeset typeset_append typeset_concat EndsAlike)

def ending (content : Text) : Ending := if Text.hasCrlf content then .crlf else .lf

theorem terminator_eq (content : Text) : terminator content = (ending content).chars := by
  unfold terminator ending
  split <;> rfl

theorem joinLines_eq (e : Ending) (closed : Bool) (lines : List Text) :
    joinLines e.chars closed lines = (typeset e closed lines).flatMap Line.chars := by
  induction lines with
  | nil => cases closed <;> rfl
  | cons t lines ih =>
    cases lines with
    | nil => cases closed <;> simp [joinLines, typeset, Line.chars, Ending.chars]
    | cons u lines =>
      rw [Text.typeset_cons e closed t (by simp), List.flatMap_cons, ← ih]
      simp [joinLines, Line.chars, List.intercalate_cons_cons]

def typesetBlocks (e : Ending) (closed : Bool) : List (List Text) → List (List Line)
  | [] => []
  | b :: bs =>
    (if bs.flatten = [] then typeset e closed b else b.map (⟨·, e⟩)) :: typesetBlocks e closed bs

theorem flatten_typesetBlocks (e : Ending) (closed : Bool) (bs : List (List Text)) :
    (typesetBlocks e closed bs).flatten = typeset e closed bs.flatten := by
  induction bs with
  | nil => rfl
  | cons b bs ih =>
    rw [typesetBlocks, List.flatten_cons, List.flatten_cons, ih]
    split
    · next hnil => rw [hnil, List.append_nil, typeset, List.append_nil]
    · next hne => rw [typeset_append e closed b hne]

theorem getElem?_typesetBlocks (e : Ending) (closed : Bool) (bs : List (List Text)) (i : ℕ) :
    (typesetBlocks e closed bs)[i]? = bs[i]?.map fun b =>
      if (bs.drop (i + 1)).flatten = [] then typeset e closed b else b.map (⟨·, e⟩) := by
  induction bs generalizing i with
  | nil => rfl
  | cons b bs ih =>
    cases i with
    | zero => rfl
    | succ i => simpa [typesetBlocks] using ih i

/-- What stands in the outcome for each line of the text, and last what was put in behind them. -/
def places (content : Text) (fixes : List Fix) : List (List Line) :=
  typesetBlocks (ending content) (content.isEmpty || Text.endsInNewline content)
    ((List.range ((Text.lines content).length + 1)).map
      (block (Text.lines content) (order fixes)))

/-- No fix that was made replaces or rewrites line `i`; some may have put lines in above it. -/
def Outcome.LeavesAlone (o : Outcome) (i : ℕ) : Prop :=
  ∀ f ∈ o.applied, f.row = i → f.placement.inserts

theorem makeInBlock?_of_inserts {f : Fix} (h : f.placement.inserts) (b : List Text) :
    makeInBlock? f b = some (newLines f ++ b) := by
  unfold makeInBlock?
  cases hp : f.placement <;> simp_all [Placement.inserts]

theorem block_of_inserts {lines : List Text} {fixes : List Fix} {i : ℕ} (hi : i ≤ lines.length)
    (h : ∀ f ∈ outcomes lines fixes true, f.row = i → f.placement.inserts) :
    ∃ inserted, block lines fixes i = inserted ++ lines[i]?.toList := by
  induction fixes using List.reverseRecOn with
  | nil => exact ⟨[], rfl⟩
  | append_singleton fixes f ih =>
    rw [outcomes_append] at h
    by_cases hf : f.row = i
    · subst hf
      rw [block_append_self]
      cases hs : succeeds lines fixes f with
      | true =>
        simp only [hs, if_true] at h
        obtain ⟨inserted, hblock⟩ := ih fun g hg => h g (List.mem_append_left _ hg)
        refine ⟨newLines f ++ inserted, ?_⟩
        rw [makeInBlock?_of_inserts (h f (by simp) rfl), Option.getD_some, hblock,
          List.append_assoc]
      | false =>
        have hfails : makeInBlock? f (block lines fixes f.row) = none := by
          simpa [succeeds, hi] using hs
        rw [hfails, Option.getD_none]
        exact ih (by simpa [hs] using h)
    · rw [block_append_ne hf]
      refine ih fun g hg => h g ?_
      split
      · exact List.mem_append_left _ hg
      · exact hg

theorem apply_content (content : Text) (fixes : List Fix) :
    (apply content fixes).content = (places content fixes).flatten.flatMap Line.chars := by
  simp only [apply, pass_eq, terminator_eq, joinLines_eq, places, flatten_typesetBlocks, blocks,
    ← List.flatMap_def]

theorem eq_last_of_nothing_behind {lines : List Text} {fixes : List Fix} {i : ℕ}
    (hi : i < lines.length)
    (h : (((List.range (lines.length + 1)).map (block lines fixes)).drop (i + 1)).flatten = []) :
    i + 1 = lines.length := by
  by_contra hne
  have hmem : block lines fixes (i + 1) ∈
      ((List.range (lines.length + 1)).map (block lines fixes)).drop (i + 1) := by
    refine List.mem_iff_getElem?.mpr ⟨0, ?_⟩
    simp [hi]
  exact block_ne_nil fixes (by omega) (List.flatten_eq_nil_iff.mp h _ hmem)

/-- A line that is left alone is the last one of what stands for it. It has the common terminator,
unless it had none. -/
theorem places_of_leavesAlone {content : Text} {fixes : List Fix} {i : ℕ} {l : Line}
    (hl : (Text.cut content)[i]? = some l) (h : (apply content fixes).LeavesAlone i) :
    ∃ inserted e, (places content fixes)[i]? = some (inserted ++ [⟨l.text, e⟩]) ∧
      (e = ending content ∨ e = .unterminated ∧ l.ending = .unterminated) := by
  have hline : (Text.lines content)[i]? = some l.text := by simp [Text.lines, hl]
  have hi : i < (Text.lines content).length := (List.getElem?_eq_some_iff.mp hline).1
  have happlied : (apply content fixes).applied =
      outcomes (Text.lines content) (order fixes) true := by
    simp only [apply, pass_eq]
  rw [Outcome.LeavesAlone, happlied] at h
  obtain ⟨inserted, hblock⟩ := block_of_inserts (Nat.le_of_lt hi) h
  rw [hline, Option.toList_some] at hblock
  rw [places, getElem?_typesetBlocks, List.getElem?_map, List.getElem?_range (by omega),
    Option.map_some, Option.map_some, hblock]
  split
  · next hnil =>
    have hlast := eq_last_of_nothing_behind hi hnil
    refine ⟨_, _, by rw [typeset_concat], ?_⟩
    split
    · exact .inl rfl
    · next hopen =>
      have hclosed : Text.endsInNewline content = false := by simp_all
      have hcut : i + 1 = (Text.cut content).length := by simpa [Text.lines] using hlast
      exact .inr ⟨rfl, ((Text.isCut_cut content).getLast hl hcut).mpr hclosed⟩
  · exact ⟨_, _, by rw [List.map_append, List.map_singleton], .inl rfl⟩

/-- The outcome is made up of blocks, one for each line of the text before, and every line that is
left alone is the last one of its block. -/
def Outcome.KeepsLines (o : Outcome) (content : Text) : Prop :=
  ∃ blocks : List (List Line), o.content = blocks.flatten.flatMap Line.chars ∧
    ∀ i l, (Text.cut content)[i]? = some l → o.LeavesAlone i →
      ∃ inserted e, blocks[i]? = some (inserted ++ [⟨l.text, e⟩])

theorem keepsLines_apply (content : Text) (fixes : List Fix) :
    (apply content fixes).KeepsLines content := by
  refine ⟨places content fixes, apply_content content fixes, fun i l hl halone => ?_⟩
  obtain ⟨inserted, e, hplace, -⟩ := places_of_leavesAlone hl halone
  exact ⟨inserted, e, hplace⟩

theorem blocks_of_none_made {lines : List Text} {fixes : List Fix}
    (h : outcomes lines fixes true = []) : blocks lines fixes = lines := by
  induction fixes using List.reverseRecOn with
  | nil => simp [blocks, flatMap_block_above, List.take_of_length_le]
  | append_singleton fixes f ih =>
    rw [outcomes_append] at h
    cases hs : succeeds lines fixes f with
    | true => simp [hs] at h
    | false =>
      rw [blocks_append_of_fails hs]
      exact ih (by simpa [hs] using h)

theorem content_of_none_made {content : Text} {fixes : List Fix}
    (h : (apply content fixes).applied = []) : (apply content fixes).content =
      (typeset (ending content) (Text.endsInNewline content) (Text.lines content)).flatMap
        Line.chars := by
  simp only [apply, pass_eq] at h
  simp only [apply, pass_eq, terminator_eq, joinLines_eq, blocks_of_none_made h]
  cases content <;> rfl

theorem content_eq_iff_of_none_made {content : Text} {fixes : List Fix}
    (h : (apply content fixes).applied = []) :
    (apply content fixes).content = content ↔ EndsAlike (ending content) content := by
  rw [content_of_none_made h]
  constructor
  · intro heq l hl
    by_cases hcrlf : Text.hasCrlf content
    · -- A text that would get longer is not the same.
      have hlength := (Text.isCut_cut content).length_typeset
      have hcontent : (Text.cut content).flatMap Line.chars = content := Text.join_cut content
      rw [ending, if_pos hcrlf] at heq ⊢
      rw [hcontent, ← Text.lines, heq] at hlength
      have hcount : (Text.cut content).countP (·.ending = .lf) = 0 := by omega
      have hlf := List.countP_eq_zero.mp hcount l hl
      cases hending : l.ending <;> simp_all
    · have hnot : l.ending ≠ .crlf := fun hl' => hcrlf (Text.hasCrlf_iff.mpr ⟨l, hl, hl'⟩)
      rw [ending, if_neg hcrlf]
      cases hending : l.ending <;> simp_all
  · intro halike
    have hcut := (Text.isCut_cut content).eq_typeset halike
    rw [Text.lines, ← hcut]
    exact Text.join_cut content

end Errata.Edit
