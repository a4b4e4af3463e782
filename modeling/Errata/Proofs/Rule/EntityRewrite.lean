import Errata.Proofs.Rule.Endings

/-!
# What a planned entity replacement rewrites

The planner looks for the bare name of the entity and the editor for the entity as it is written
there, with a terminator or without one. Both come to the same place, which is the one that the
report means, so exactly the stretch that the planner has seen is rewritten. The bare name decides
about the place. Where a longer name begins with it and stands before the entity, the planner sees
an entity without a terminator, and the first letters of that name are rewritten.
-/
namespace Errata.Rule.Entity

open Text Edit

variable {v : Violation} {content line : Text} {f : Fix}

theorem trim_eq_of_lookup? {matched : Text} (h : (lookup? (trim matched)).isSome) :
    trim matched = bare matched ++ [';'] := by
  have htable : ∀ entry ∈ attributes,
      dropEndWhile (· == ';') (entityText entry.1) ++ [';'] = entityText entry.1 := by
    decide
  rw [lookup?, Option.isSome_map, List.find?_isSome] at h
  obtain ⟨entry, hentry, hname⟩ := h
  rw [bare, ← beq_iff_eq.mp hname]
  exact (htable entry hentry).symm

theorem trim_eq_bare_or {matched r : Text} (h : replacement? matched = some r) :
    trim matched = bare matched ∨ trim matched = bare matched ++ [';'] := by
  rw [replacement?] at h
  by_cases hlast : (trim matched).getLast? = some ';'
  · rw [if_pos hlast] at h
    exact .inr (trim_eq_of_lookup? (by simp [h]))
  · refine .inl ?_
    cases hmatched : trim matched using List.reverseRecOn with
    | nil => simp [bare, hmatched, dropEndWhile]
    | append_singleton t c =>
      have hc : c ≠ ';' := by simpa [hmatched] using hlast
      rw [bare, hmatched, dropEndWhile_concat, if_neg (by simpa using hc)]

/-- The length of an entity that stands in a line, its terminator included if it has one. -/
def stretch (line : Text) (start : ℕ) (name : Text) : ℕ :=
  name.length + if (line.drop (start + name.length)).head? = some ';' then 1 else 0

theorem length_written {matched : Text} {column start : ℕ}
    (h : findNear? (bare matched) column line = some start) :
    (written line column matched).length = stretch line start (bare matched) := by
  rw [written_eq, h, stretch]
  dsimp only
  split <;> simp

theorem add_stretch_le {name : Text} {start : ℕ} (h : OccursAt name line start) :
    start + stretch line start name ≤ line.length := by
  have hlength := h.add_length_le
  rw [stretch]
  split
  · next hterminator =>
    rw [List.head?_drop] at hterminator
    have hlt := (List.getElem?_eq_some_iff.mp hterminator).1
    omega
  · omega

theorem pass_plan (h : plan v content = some f) (hline : (lines content)[v.row]? = some line) :
    pass (lines content) [f] =
      match findNear? (bare v.originalText) v.col line with
      | some start => ⟨(lines content).set v.row (overwrite line start
          (stretch line start (bare v.originalText)) f.replacement), [f], []⟩
      | none => ⟨lines content, [], [f]⟩ := by
  obtain ⟨hr, -, rfl, hp, hneedle⟩ := plan_eq_some h
  have hneedle := hneedle line hline
  have hb := bare_ne_nil hr
  have hn : f.needle ≠ [] := by
    intro hnil
    have hpre := bare_prefix_written line f.violation.col f.violation.originalText
    rw [← hneedle, hnil] at hpre
    exact hb (List.eq_nil_of_prefix_nil hpre)
  rw [pass_atMatch hp hn hline, hneedle, findNear?_written hb]
  cases hf : findNear? (bare f.violation.originalText) f.violation.col line with
  | none => rfl
  | some start => rw [length_written hf]

theorem lines_apply_plan (h : plan v content = some f)
    (hline : (lines content)[v.row]? = some line) :
    lines (apply content [f]).content = (pass (lines content) [f]).lines := by
  obtain ⟨-, -, -, hp, -⟩ := plan_eq_some h
  have hkeeps := keepsEndings_of_plan h 0
  simp only [KeepsEndings, hp] at hkeeps
  have hproper : ∀ l, (cut content)[v.row]? = some l → l.text = line ∧ IsProper l := by
    intro l hl
    rw [lines, List.getElem?_map, hl, Option.map_some, Option.some_inj] at hline
    exact ⟨hline, isProper_of_mem_cut (List.mem_of_getElem? hl)⟩
  have hpass := pass_plan h hline
  split at hpass
  · rw [hpass]
    refine lines_apply_of_set (by rw [hpass]) fun l hl => ?_
    obtain ⟨rfl, hl⟩ := hproper l hl
    exact isProper_overwrite _ _ hl hkeeps.1 hkeeps.2
  · have hsame : (lines content).set v.row line = lines content := by
      obtain ⟨hlt, rfl⟩ := List.getElem?_eq_some_iff.mp hline
      exact List.set_getElem_self hlt
    rw [hpass, ← hsame]
    refine lines_apply_of_set (by rw [hpass, hsame]) fun l hl => ?_
    obtain ⟨rfl, hl⟩ := hproper l hl
    exact hl

/-- Planner and editor mean the same text. If the bare name of the match stands on the reported
line, the fix is made and rewrites one stretch of that line: the occurrence that the report means,
with the terminator right behind it if there is one. If it does not, the fix is skipped and no line
changes. -/
theorem planned_stretch_rewritten (h : plan v content = some f)
    (hline : (lines content)[v.row]? = some line) :
    (trim v.originalText = bare v.originalText ∨
      trim v.originalText = bare v.originalText ++ [';']) ∧
    replacement? v.originalText = some f.replacement ∧
    ((∃ i, OccursAt (bare v.originalText) line i) →
      ∃ start, IsNearest (bare v.originalText) line v.col start ∧
        (apply content [f]).applied = [f] ∧ (apply content [f]).skipped = [] ∧
        lines (apply content [f]).content = (lines content).set v.row (overwrite line start
          (stretch line start (bare v.originalText)) f.replacement)) ∧
    ((∀ i, ¬OccursAt (bare v.originalText) line i) →
      (apply content [f]).applied = [] ∧ (apply content [f]).skipped = [f] ∧
        lines (apply content [f]).content = lines content) := by
  obtain ⟨hr, -⟩ := plan_eq_some h
  have hb := bare_ne_nil hr
  have hpass := pass_plan h hline
  have hlines := lines_apply_plan h hline
  refine ⟨trim_eq_bare_or hr, hr, fun ⟨i, hi⟩ => ?_, fun hnone => ?_⟩
  · obtain ⟨start, hstart⟩ := hi.exists_isNearest hb v.col
    rw [(findNear?_eq_some_iff hb).mpr hstart] at hpass
    exact ⟨start, hstart, by rw [apply, hpass], by rw [apply, hpass], by rw [hlines, hpass]⟩
  · rw [(findNear?_eq_none_iff hb).mpr hnone] at hpass
    exact ⟨by rw [apply, hpass], by rw [apply, hpass], by rw [hlines, hpass]⟩

def reportAt (column : ℕ) (matched : Text) : Violation :=
  { earlyReport with column := column, originalText := matched }

/-- The report comes too late and has no terminator, and the line has both the entity and the
terminator. -/
theorem planned_stretch_rewritten_lateReport :
    ∃ f, plan (reportAt 9 "&nbsp") "ü &nbsp; ä\r\nz" = some f ∧
      (apply "ü &nbsp; ä\r\nz" [f]).applied = [f] ∧
      lines (apply "ü &nbsp; ä\r\nz" [f]).content = ["ü \x7bnbsp\x7d ä", "z"] := by
  obtain ⟨f, hf⟩ := Option.isSome_iff_exists.mp
    (show (plan (reportAt 9 "&nbsp") "ü &nbsp; ä\r\nz").isSome from by decide +kernel)
  have hline : (lines "ü &nbsp; ä\r\nz")[(reportAt 9 "&nbsp").row]? =
      some ("ü &nbsp; ä" : Text) := by decide +kernel
  have hb : bare (reportAt 9 "&nbsp").originalText ≠ [] := by decide +kernel
  have hat : findNear? (bare (reportAt 9 "&nbsp").originalText) (reportAt 9 "&nbsp").col
      "ü &nbsp; ä" = some 2 := by decide +kernel
  obtain ⟨-, hr, hfound, -⟩ := planned_stretch_rewritten hf hline
  have hr : "\x7bnbsp\x7d".toList = f.replacement :=
    Option.some.inj ((show replacement? (reportAt 9 "&nbsp").originalText = some _ from by
      decide +kernel).symm.trans hr)
  obtain ⟨start, hstart, happlied, -, hlines⟩ := hfound ⟨2, ((findNear?_eq_some_iff hb).mp hat).1⟩
  obtain rfl := ((findNear?_eq_some_iff hb).mp hat).unique hstart
  refine ⟨f, hf, happlied, hlines.trans ?_⟩
  rw [← hr]
  decide +kernel

/-- When an entity with its terminator is replaced as a whole, if it stands at the reported column
or behind it: exactly if the first place from there on where its bare name stands has the terminator
too, so that no longer name which begins like it comes first. -/
theorem whole_entity_replaced_iff (hknown : (lookup? (trim v.originalText)).isSome)
    (h : plan v content = some f) (hline : (lines content)[v.row]? = some line)
    (hocc : ∃ i, v.col ≤ i ∧ OccursAt (trim v.originalText) line i) :
    (∃ start, OccursAt (trim v.originalText) line start ∧
      lines (apply content [f]).content = (lines content).set v.row
        (overwrite line start (trim v.originalText).length f.replacement)) ↔
    ∀ start, IsNearest (bare v.originalText) line v.col start →
      (line.drop (start + (bare v.originalText).length)).head? = some ';' := by
  obtain ⟨hr, -⟩ := plan_eq_some h
  have hb := bare_ne_nil hr
  have hname := trim_eq_of_lookup? hknown
  obtain ⟨i, -, hi⟩ := hocc
  have hibare : OccursAt (bare v.originalText) line i := hi.of_isPrefix ⟨[';'], hname.symm⟩
  obtain ⟨start, hstart⟩ := hibare.exists_isNearest hb v.col
  have hlt := (List.getElem?_eq_some_iff.mp hline).1
  have hlines : lines (apply content [f]).content = (lines content).set v.row (overwrite line start
      (stretch line start (bare v.originalText)) f.replacement) := by
    rw [lines_apply_plan h hline, pass_plan h hline, (findNear?_eq_some_iff hb).mpr hstart]
  constructor
  · rintro ⟨site, hsite, hwritten⟩ start' hstart'
    obtain rfl := hstart.unique hstart'
    by_contra hbare
    -- Without the terminator the line comes out one character longer than it should.
    have hat := congrArg (·[v.row]?) (hlines.symm.trans hwritten)
    simp only [List.getElem?_set_self hlt, Option.some_inj] at hat
    have hlength := congrArg List.length hat
    have hsmall := length_overwrite f.replacement (add_stretch_le hstart.1)
    have hlarge := length_overwrite f.replacement hsite.add_length_le
    have hone : (trim v.originalText).length = (bare v.originalText).length + 1 := by
      rw [hname, List.length_append, List.length_singleton]
    rw [stretch, if_neg hbare] at hlength hsmall
    omega
  · intro hterminated
    refine ⟨start, ?_, ?_⟩
    · rw [hname]
      exact hstart.1.append_singleton (hterminated start hstart)
    · rw [hlines, stretch, if_pos (hterminated start hstart), hname, List.length_append,
        List.length_singleton]

/-- The entity stands before the longer name, so it is the first that is found. -/
theorem whole_entity_replaced_before_longer :
    ∃ f, plan (reportAt 1 "&lt;") "a &lt; b &ltimes;" = some f ∧
      ∃ start, OccursAt "&lt;" "a &lt; b &ltimes;" start ∧
        lines (apply "a &lt; b &ltimes;" [f]).content = (lines "a &lt; b &ltimes;").set 0
          (overwrite "a &lt; b &ltimes;" start 4 f.replacement) := by
  obtain ⟨f, hf⟩ := Option.isSome_iff_exists.mp
    (show (plan (reportAt 1 "&lt;") "a &lt; b &ltimes;").isSome from by decide +kernel)
  have hline : (lines "a &lt; b &ltimes;")[(reportAt 1 "&lt;").row]? =
      some ("a &lt; b &ltimes;" : Text) := by decide +kernel
  have hb : bare (reportAt 1 "&lt;").originalText ≠ [] := by decide +kernel
  have hat : findNear? (bare (reportAt 1 "&lt;").originalText) (reportAt 1 "&lt;").col
      "a &lt; b &ltimes;" = some 2 := by decide +kernel
  refine ⟨f, hf, (whole_entity_replaced_iff (by decide +kernel) hf hline
    ⟨2, by decide +kernel, by decide +kernel⟩).mpr ?_⟩
  intro start hstart
  obtain rfl := ((findNear?_eq_some_iff hb).mp hat).unique hstart
  decide +kernel

/-- The entity stands behind a longer name, whose first letters are rewritten in its place. -/
theorem longer_name_cut :
    ∃ f, plan (reportAt 1 "&lt;") "&ltimes; &lt;" = some f ∧
      OccursAt "&lt;" "&ltimes; &lt;" 9 ∧
      lines (apply "&ltimes; &lt;" [f]).content = ["\x7blt\x7dimes; &lt;"] := by
  obtain ⟨f, hf⟩ := Option.isSome_iff_exists.mp
    (show (plan (reportAt 1 "&lt;") "&ltimes; &lt;").isSome from by decide +kernel)
  have hline : (lines "&ltimes; &lt;")[(reportAt 1 "&lt;").row]? =
      some ("&ltimes; &lt;" : Text) := by decide +kernel
  have hat : findNear? (bare (reportAt 1 "&lt;").originalText) (reportAt 1 "&lt;").col
      "&ltimes; &lt;" = some 0 := by decide +kernel
  have hr : "\x7blt\x7d".toList = f.replacement :=
    Option.some.inj ((show replacement? (reportAt 1 "&lt;").originalText = some _ from by
      decide +kernel).symm.trans (plan_eq_some hf).1)
  refine ⟨f, hf, by decide +kernel, ?_⟩
  rw [lines_apply_plan hf hline, pass_plan hf hline, hat, ← hr]
  dsimp only
  decide +kernel

end Errata.Rule.Entity
