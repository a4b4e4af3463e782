import Errata.Proofs.Edit.Untouched

/-!
# Putting lines in

A fix that only puts lines in can be made before every line of the text and behind the last one. The
outcome has its lines in between those of the text; what joining and cutting again can change about
a line are blanks at its end.
-/
namespace Errata.Edit

open Text (lines trim)

theorem make?_of_inserts {f : Fix} (h : f.placement.inserts) (ls : List Text) :
    make? f ls = insertBefore? f.row f ls := by
  unfold make?
  cases hp : f.placement with
  | insertLine n | insertAbove => simp [Fix.row, hp]
  | atMatch | replaceLine n => simp [hp, Placement.inserts] at h

/-- The lines with those of a fix put in before line `f.row`. -/
def inserted (ls : List Text) (f : Fix) : List Text := ls.take f.row ++ newLines f ++ ls.drop f.row

theorem pass_of_inserts {ls : List Text} {f : Fix} (h : f.placement.inserts)
    (hrow : f.row ≤ ls.length) : pass ls [f] = ⟨inserted ls f, [f], []⟩ := by
  rw [pass_singleton, Progress.step, make?_of_inserts h, insertBefore?, if_pos hrow]
  rfl

theorem newline_not_mem_newLines {f : Fix} {t : Text} (h : t ∈ newLines f) : '\n' ∉ t := by
  obtain ⟨part, hmem, hpart⟩ := List.mem_map.mp h
  obtain ⟨-, n, hreturns⟩ := dropEndWhile_eq_iff.mp hpart
  have hnone := Text.not_mem_of_mem_splitOn hmem
  rw [hreturns] at hnone
  exact fun hnewline => hnone (List.mem_append_left _ hnewline)

theorem newline_not_mem_lines {content line : Text} (h : line ∈ lines content) : '\n' ∉ line := by
  obtain ⟨l, hl, rfl⟩ := List.mem_map.mp h
  exact Text.newline_not_mem_of_mem_cut hl

theorem newline_not_mem_inserted {content : Text} {f : Fix} {t : Text}
    (h : t ∈ inserted (lines content) f) : '\n' ∉ t := by
  rcases List.mem_append.mp h with h | h
  · rcases List.mem_append.mp h with h | h
    · exact newline_not_mem_lines (List.mem_of_mem_take h)
    · exact newline_not_mem_newLines h
  · exact newline_not_mem_lines (List.mem_of_mem_drop h)

theorem getLast?_inserted (ls : List Text) (f : Fix) :
    (inserted ls f).getLast? =
      if f.row < ls.length then ls.getLast? else (newLines f).getLast? := by
  rw [inserted]
  split
  · next h =>
    have hne : ls.drop f.row ≠ [] := by simpa using h
    rw [List.getLast?_append_of_ne_nil _ hne, List.getLast?_drop, if_neg (by omega)]
  · next h =>
    rw [List.drop_eq_nil_of_le (by omega), List.append_nil,
      List.getLast?_append_of_ne_nil _ (newLines_ne_nil f)]

/-- Lines that are joined as those of a text are, are read again in their order. The last one must
not get lost for being empty. -/
theorem rereads_lines_joinLines {content : Text} {ls : List Text} (hls : ∀ t ∈ ls, '\n' ∉ t)
    (hlast : Text.endsInNewline content = false → ls.getLast? ≠ some []) :
    List.Forall₂ Text.Rereads ls (lines (joinLines (terminator content)
      (content.isEmpty || Text.endsInNewline content) ls)) := by
  have hending : ending content ≠ .unterminated := by
    unfold ending
    split <;> simp
  rw [terminator_eq, joinLines_eq]
  refine Text.rereads_lines_typeset hending hls ?_
  cases hclosed : content.isEmpty || Text.endsInNewline content with
  | true => exact .inl rfl
  | false => exact .inr (hlast (Bool.or_eq_false_iff.mp hclosed).2)

/-- The lines of the outcome are those of the text with those of the fix put in. A line put in
behind all others must not be empty, or it would be none. -/
theorem rereads_lines_apply_of_inserts {content : Text} {f : Fix} (h : f.placement.inserts)
    (hrow : f.row ≤ (lines content).length)
    (hlast : f.row = (lines content).length → (newLines f).getLast? ≠ some []) :
    List.Forall₂ Text.Rereads (inserted (lines content) f)
      (lines (apply content [f]).content) := by
  rw [apply, pass_of_inserts h hrow]
  refine rereads_lines_joinLines (fun t ht => newline_not_mem_inserted ht) fun hopen => ?_
  rw [getLast?_inserted]
  split
  · exact Text.getLast?_lines_ne_nil hopen
  · exact hlast (by omega)

section Several

variable {ls : List Text} {fixes : List Fix}

/-- What is put in first ends up nearest to the line. -/
theorem block_of_all_insert (h : ∀ f ∈ fixes, f.placement.inserts) (i : ℕ) :
    block ls fixes i = (fixes.filter (·.row = i)).reverse.flatMap newLines ++ ls[i]?.toList := by
  induction fixes using List.reverseRecOn with
  | nil => simp [block]
  | append_singleton fixes f ih =>
    have hbefore := ih fun g hg => h g (List.mem_append_left _ hg)
    by_cases hrow : f.row = i
    · subst hrow
      rw [block_append_self, makeInBlock?_of_inserts (h f (by simp)), hbefore]
      simp [List.filter_append]
    · rw [block_append_ne hrow, hbefore]
      simp [List.filter_append, hrow]

theorem succeeds_of_inserts {f : Fix} (h : f.placement.inserts) (hrow : f.row ≤ ls.length)
    (before : List Fix) : succeeds ls before f = true := by
  rw [succeeds, makeInBlock?_of_inserts h]
  simpa using hrow

theorem pass_of_all_insert (h : ∀ f ∈ fixes, f.placement.inserts ∧ f.row ≤ ls.length) :
    pass ls fixes = ⟨blocks ls (order fixes), order fixes, []⟩ := by
  have hsucceeds : ∀ x ∈ (order fixes).zipIdx, succeeds ls ((order fixes).take x.2) x.1 = true := by
    intro x hx
    obtain ⟨hinserts, hrow⟩ := h x.1 ((order_perm fixes).mem_iff.mp (List.fst_mem_of_mem_zipIdx hx))
    exact succeeds_of_inserts hinserts hrow _
  have hmade : outcomes ls (order fixes) true = order fixes := by
    rw [outcomes, List.filter_eq_self.mpr fun x hx => by rw [hsucceeds x hx]; rfl,
      List.zipIdx_map_fst]
  have hfailed : outcomes ls (order fixes) false = [] := by
    rw [outcomes, List.filter_eq_nil_iff.mpr fun x hx => by rw [hsucceeds x hx]; decide,
      List.map_nil]
  rw [pass_eq, hmade, hfailed]

/-- What stands above line `i` in the outcome. -/
def above (ls : List Text) (fixes : List Fix) (i : ℕ) : List Text :=
  (List.range i).flatMap (block ls fixes) ++ (fixes.filter (·.row = i)).reverse.flatMap newLines

/-- The number of lines that are put in above line `i`. -/
def added (fixes : List Fix) (i : ℕ) : ℕ := ((fixes.filter (·.row ≤ i)).flatMap newLines).length

theorem above_succ (h : ∀ f ∈ fixes, f.placement.inserts) (i : ℕ) :
    above ls fixes (i + 1) = above ls fixes i ++ ls[i]?.toList ++
      (fixes.filter (·.row = i + 1)).reverse.flatMap newLines := by
  rw [above, List.range_succ, List.flatMap_append, List.flatMap_singleton,
    block_of_all_insert h i, above]
  simp only [List.append_assoc]

theorem blocks_eq_above (h : ∀ f ∈ fixes, f.placement.inserts) {i : ℕ} (hi : i ≤ ls.length) :
    ∃ below, blocks ls fixes = above ls fixes i ++ ls[i]?.toList ++ below := by
  refine ⟨((List.range (ls.length - i)).map (i + 1 + ·)).flatMap (block ls fixes), ?_⟩
  rw [blocks_split ls fixes hi, block_of_all_insert h i, above]
  simp only [List.append_assoc]

theorem added_succ (fixes : List Fix) (i : ℕ) :
    added fixes (i + 1) =
      added fixes i + ((fixes.filter (·.row = i + 1)).reverse.flatMap newLines).length := by
  rw [((List.reverse_perm _).flatMap_right newLines).length_eq]
  unfold added
  induction fixes with
  | nil => rfl
  | cons f fixes ih =>
    simp only [List.filter_cons, decide_eq_true_eq]
    rcases Nat.lt_trichotomy f.row (i + 1) with hrow | hrow | hrow
    · rw [if_pos (by omega), if_pos (by omega), if_neg (by omega), List.flatMap_cons,
        List.flatMap_cons, List.length_append, List.length_append, ih, Nat.add_assoc]
    · rw [if_pos (by omega), if_neg (by omega), if_pos (by omega), List.flatMap_cons,
        List.flatMap_cons, List.length_append, List.length_append, ih]
      omega
    · rw [if_neg (by omega), if_neg (by omega), if_neg (by omega), ih]

theorem length_above (h : ∀ f ∈ fixes, f.placement.inserts) {i : ℕ} (hi : i ≤ ls.length) :
    (above ls fixes i).length = i + added fixes i := by
  induction i with
  | zero => simp [above, added]
  | succ i ih =>
    rw [above_succ h, List.length_append, List.length_append, ih (by omega), added_succ,
      List.getElem?_eq_getElem (by omega), Option.toList_some, List.length_singleton]
    omega

/-- Right above a line stands what the first fix at that line has put in. -/
theorem getLast?_above_of_first {i : ℕ} {f : Fix} (h : fixes.find? (·.row = i) = some f) :
    (above ls fixes i).getLast? = (newLines f).getLast? := by
  rw [← List.head?_filter] at h
  obtain ⟨rest, hrest⟩ := List.head?_eq_some_iff.mp h
  rw [above, hrest, List.reverse_cons, List.flatMap_append, List.flatMap_singleton,
    ← List.append_assoc, List.getLast?_append_of_ne_nil _ (newLines_ne_nil f)]

theorem getLast?_above_of_none (hinserts : ∀ f ∈ fixes, f.placement.inserts) {i : ℕ}
    (hi : i < ls.length) (h : ∀ f ∈ fixes, f.row ≠ i + 1) :
    (above ls fixes (i + 1)).getLast? = ls[i]? := by
  have hnone : fixes.filter (·.row = i + 1) = [] := by simpa using h
  rw [above_succ hinserts, hnone, List.getElem?_eq_getElem hi]
  simp

theorem getElem?_blocks (h : ∀ f ∈ fixes, f.placement.inserts) {i : ℕ} (hi : i < ls.length) :
    (blocks ls fixes)[i + added fixes i]? = ls[i]? := by
  obtain ⟨below, hblocks⟩ := blocks_eq_above h (Nat.le_of_lt hi)
  rw [hblocks, ← length_above h (Nat.le_of_lt hi), List.append_assoc,
    List.getElem?_append_right (Nat.le_refl _), List.getElem?_eq_getElem hi]
  simp

theorem getElem?_blocks_above (h : ∀ f ∈ fixes, f.placement.inserts) {i : ℕ} (hi : i ≤ ls.length)
    (hpos : 0 < i + added fixes i) :
    (blocks ls fixes)[i + added fixes i - 1]? = (above ls fixes i).getLast? := by
  obtain ⟨below, hblocks⟩ := blocks_eq_above h hi
  have hlength := length_above h hi
  rw [hblocks, ← hlength, List.append_assoc, List.getElem?_append_left (by omega),
    List.getLast?_eq_getElem?]

theorem mem_blocks_of_inserts (h : ∀ f ∈ fixes, f.placement.inserts) {t : Text}
    (ht : t ∈ blocks ls fixes) : (∃ f, t ∈ newLines f) ∨ t ∈ ls := by
  obtain ⟨i, -, ht⟩ := List.mem_flatMap.mp ht
  rw [block_of_all_insert h] at ht
  rcases List.mem_append.mp ht with ht | ht
  · obtain ⟨f, -, ht⟩ := List.mem_flatMap.mp ht
    exact .inl ⟨f, ht⟩
  · exact .inr (List.mem_of_getElem? (Option.mem_toList.mp ht))

theorem getLast?_blocks (h : ∀ f ∈ fixes, f.placement.inserts ∧ f.row < ls.length) :
    (blocks ls fixes).getLast? = ls.getLast? := by
  have hinserts : ∀ f ∈ fixes, f.placement.inserts := fun f hf => (h f hf).1
  have hbehind : fixes.filter (·.row = ls.length) = [] := by
    simpa using fun f hf => Nat.ne_of_lt (h f hf).2
  have hblocks : blocks ls fixes = above ls fixes ls.length := by
    rw [blocks_split ls fixes (Nat.le_refl _), block_of_all_insert hinserts, above, hbehind]
    simp
  rw [hblocks]
  cases hlength : ls.length with
  | zero => simp_all [above]
  | succ n =>
    rw [getLast?_above_of_none hinserts (by omega) fun f hf => ?_, List.getLast?_eq_getElem?,
      hlength, Nat.add_sub_cancel]
    have := (h f hf).2
    omega

theorem trim_lines_apply_of_all_insert {content : Text}
    (h : ∀ f ∈ fixes, f.placement.inserts ∧ f.row < (lines content).length) :
    (lines (apply content fixes).content).map trim =
      (pass (lines content) fixes).lines.map trim := by
  have hordered : ∀ f ∈ order fixes, f.placement.inserts ∧ f.row < (lines content).length :=
    fun f hf => h f ((order_perm fixes).mem_iff.mp hf)
  have hpass := pass_of_all_insert fun f hf => ⟨(h f hf).1, Nat.le_of_lt (h f hf).2⟩
  rw [apply, hpass]
  refine Text.trim_eq_of_rereads (rereads_lines_joinLines (fun t ht => ?_) fun hopen => ?_)
  · rcases mem_blocks_of_inserts (fun f hf => (hordered f hf).1) ht with ⟨f, ht⟩ | ht
    · exact newline_not_mem_newLines ht
    · exact newline_not_mem_lines ht
  · rw [getLast?_blocks hordered]
    exact Text.getLast?_lines_ne_nil hopen

end Several

end Errata.Edit
