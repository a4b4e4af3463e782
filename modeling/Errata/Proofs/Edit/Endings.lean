import Errata.Proofs.Edit.Insertion
import Errata.Proofs.Edit.Nearest
import Mathlib.Data.List.DropRight

/-!
# How an edited text ends its lines

A pass cannot change how lines end as long as the lines in its buffer are tidy, that is, as long as
none of them holds a newline or ends in a carriage return. What is put in as lines is tidy by itself;
what is written over a match has to be. The text keeps or lacks its final newline as long as its last
line is not empty, which only a fix that ends in a line break behind all lines could bring about.
-/
namespace Errata.Edit

open Text (lines IsProper IsTidy EndsAlike ReturnsEndLines)

/-- The last character belongs to no terminator. -/
def IsSolid (t : Text) : Prop := ∃ c, t.getLast? = some c ∧ c ≠ '\n' ∧ c ≠ '\r'

/-- A fix that leaves alone how the lines of a text of `n` lines end: it writes over a match within
one line, and it puts nothing empty at the end. -/
def KeepsEndings (n : ℕ) (f : Fix) : Prop :=
  match f.placement with
  | .atMatch => '\n' ∉ f.replacement ∧ IsSolid f.replacement
  | .replaceLine _ => IsSolid f.replacement
  | .insertLine _ | .insertAbove => f.row < n ∨ IsSolid f.replacement

theorem IsSolid.append {t : Text} (h : IsSolid t) (s : Text) : IsSolid (s ++ t) := by
  obtain ⟨c, hlast, hc⟩ := h
  exact ⟨c, by simp [List.getLast?_append, hlast], hc⟩

theorem IsSolid.ne_nil {t : Text} (h : IsSolid t) : t ≠ [] := by
  rintro rfl
  obtain ⟨c, hlast, -⟩ := h
  cases hlast

theorem isTidy_newLines {f : Fix} {t : Text} (h : t ∈ newLines f) : IsTidy t := by
  obtain ⟨part, -, hpart⟩ := List.mem_map.mp h
  exact ⟨newline_not_mem_newLines h, (dropEndWhile_eq_iff.mp hpart).1⟩

theorem exists_last_splitOn (c : Char) (t : Text) :
    ∃ before last, t.splitOn c = before ++ [last] ∧
      (before = [] ∧ t = last ∨ before ≠ [] ∧ ∃ s, t = s ++ c :: last) := by
  induction t with
  | nil => exact ⟨[], [], List.splitOn_nil c, .inl ⟨rfl, rfl⟩⟩
  | cons x t ih =>
    obtain ⟨before, last, hsplit, hwhere⟩ := ih
    rw [List.splitOn_cons_eq_if_modifyHead, hsplit]
    by_cases hx : x = c
    · subst hx
      refine ⟨[] :: before, last, by simp, .inr ⟨by simp, ?_⟩⟩
      rcases hwhere with ⟨-, rfl⟩ | ⟨-, s, rfl⟩
      · exact ⟨[], rfl⟩
      · exact ⟨x :: s, rfl⟩
    · rcases hwhere with ⟨rfl, rfl⟩ | ⟨hne, s, rfl⟩
      · exact ⟨[], x :: t, by simp [hx], .inl ⟨rfl, rfl⟩⟩
      · obtain ⟨first, rest, rfl⟩ := List.exists_cons_of_ne_nil hne
        exact ⟨(x :: first) :: rest, last, by simp [hx], .inr ⟨by simp, x :: s, rfl⟩⟩

/-- A text that ends in no terminator puts in a last line that is not empty. -/
theorem getLast?_newLines_ne_nil {f : Fix} (h : IsSolid f.replacement) :
    (newLines f).getLast? ≠ some [] := by
  obtain ⟨c, hlast, hnewline, hreturn⟩ := h
  obtain ⟨before, last, hsplit, hwhere⟩ := exists_last_splitOn '\n' f.replacement
  have hsuffix : last.getLast? = some c := by
    rcases hwhere with ⟨-, htext⟩ | ⟨-, s, htext⟩
    · rwa [← htext]
    · rw [htext, List.getLast?_append_of_ne_nil _ (by simp)] at hlast
      cases last with
      | nil => exact absurd (Option.some.inj hlast).symm hnewline
      | cons d last => rwa [List.getLast?_cons_cons] at hlast
  rw [newLines, hsplit, List.map_append, List.map_singleton, List.getLast?_concat, Ne,
    Option.some_inj]
  intro hnil
  have hall : ∀ d ∈ last, (d == '\r') = true := List.rdropWhile_eq_nil_iff.mp hnil
  exact hreturn (by simpa using hall c (List.mem_of_getLast? hsuffix))

/-- A buffer of tidy lines with at least `n` of them; if the text is to end without a newline, the
last line must not be empty. -/
structure IsWhole (closed : Bool) (n : ℕ) (ls : List Text) : Prop where
  tidy : ∀ t ∈ ls, IsTidy t
  le_length : n ≤ ls.length
  last : closed = false → ls.getLast? ≠ some []

section Make

variable {closed : Bool} {n : ℕ} {ls ls' : List Text} {f : Fix}

theorem IsWhole.inserted (h : IsWhole closed n ls)
    (hf : f.row < n ∨ IsSolid f.replacement) : IsWhole closed n (inserted ls f) where
  tidy t ht := by
    rcases List.mem_append.mp ht with ht | ht
    · rcases List.mem_append.mp ht with ht | ht
      · exact h.tidy t (List.mem_of_mem_take ht)
      · exact isTidy_newLines ht
    · exact h.tidy t (List.mem_of_mem_drop ht)
  le_length := by
    have hlength := h.le_length
    simp only [Edit.inserted, List.length_append, List.length_take, List.length_drop]
    omega
  last hopen := by
    rw [getLast?_inserted]
    split
    · exact h.last hopen
    · next hbehind =>
      have hlength := h.le_length
      exact getLast?_newLines_ne_nil (hf.resolve_left (by omega))

theorem IsWhole.replaced (h : IsWhole closed n ls) {i : ℕ} (hi : i < ls.length)
    (hf : IsSolid f.replacement) :
    IsWhole closed n (ls.take i ++ newLines f ++ ls.drop (i + 1)) where
  tidy t ht := by
    rcases List.mem_append.mp ht with ht | ht
    · rcases List.mem_append.mp ht with ht | ht
      · exact h.tidy t (List.mem_of_mem_take ht)
      · exact isTidy_newLines ht
    · exact h.tidy t (List.mem_of_mem_drop ht)
  le_length := by
    have hlength := h.le_length
    have hpos := List.length_pos_of_ne_nil (newLines_ne_nil f)
    simp only [List.length_append, List.length_take, List.length_drop]
    omega
  last hopen := by
    by_cases hlast : i + 1 < ls.length
    · have hne : ls.drop (i + 1) ≠ [] := by simpa using hlast
      rw [List.getLast?_append_of_ne_nil _ hne, List.getLast?_drop, if_neg (by omega)]
      exact h.last hopen
    · rw [List.drop_eq_nil_of_le (by omega), List.append_nil,
        List.getLast?_append_of_ne_nil _ (newLines_ne_nil f)]
      exact getLast?_newLines_ne_nil hf

section Overwrite

variable {line new : Text} (start length : ℕ)

theorem newline_not_mem_overwrite (hline : '\n' ∉ line) (hnew : '\n' ∉ new) :
    '\n' ∉ Text.overwrite line start length new := by
  have htake : '\n' ∉ line.take start := fun hmem => hline (List.mem_of_mem_take hmem)
  have hdrop : '\n' ∉ line.drop (start + length) := fun hmem => hline (List.mem_of_mem_drop hmem)
  simp [Text.overwrite, htake, hnew, hdrop]

theorem overwrite_ne_nil (hsolid : IsSolid new) : Text.overwrite line start length new ≠ [] := by
  simp [Text.overwrite, hsolid.ne_nil]

theorem getLast?_overwrite_ne (hline : line.getLast? ≠ some '\r') (hsolid : IsSolid new) :
    (Text.overwrite line start length new).getLast? ≠ some '\r' := by
  rw [Text.overwrite]
  by_cases hend : line.drop (start + length) = []
  · obtain ⟨c, hlast, -, hc⟩ := hsolid.append (line.take start)
    simpa [hend, hlast] using hc
  · rw [List.getLast?_append_of_ne_nil _ hend, List.getLast?_drop,
      if_neg (by simpa using hend)]
    exact hline

theorem isTidy_overwrite (hline : IsTidy line) (hnew : '\n' ∉ new) (hsolid : IsSolid new) :
    IsTidy (Text.overwrite line start length new) :=
  ⟨newline_not_mem_overwrite start length hline.1 hnew,
    getLast?_overwrite_ne start length hline.2 hsolid⟩

theorem isProper_overwrite {l : Line} (hl : IsProper l) (hnew : '\n' ∉ new)
    (hsolid : IsSolid new) : IsProper ⟨Text.overwrite l.text start length new, l.ending⟩ where
  newline := newline_not_mem_overwrite start length hl.newline hnew
  lf hlf := getLast?_overwrite_ne start length (hl.lf hlf) hsolid
  unterminated _ := overwrite_ne_nil start length hsolid

end Overwrite

theorem IsWhole.set (h : IsWhole closed n ls) {line : Text} (hline : IsTidy line)
    (hne : line ≠ []) (i : ℕ) : IsWhole closed n (ls.set i line) where
  tidy t ht := by
    rcases List.mem_or_eq_of_mem_set ht with ht | rfl
    · exact h.tidy t ht
    · exact hline
  le_length := by simpa using h.le_length
  last hopen := by
    have hlast := h.last hopen
    rw [List.getLast?_eq_getElem?] at hlast ⊢
    rw [List.length_set, List.getElem?_set]
    split
    · split
      · simpa using hne
      · simp
    · exact hlast

theorem IsWhole.make (h : IsWhole closed n ls) (hf : KeepsEndings n f)
    (hmake : make? f ls = some ls') : IsWhole closed n ls' := by
  unfold KeepsEndings at hf
  cases hp : f.placement with
  | insertLine m | insertAbove =>
    simp only [hp] at hf
    rw [make?_of_inserts (by simp [hp, Placement.inserts]), insertBefore?] at hmake
    split at hmake
    · obtain rfl := Option.some.inj hmake
      exact h.inserted hf
    · cases hmake
  | replaceLine m =>
    simp only [hp] at hf
    simp only [make?, hp] at hmake
    split at hmake
    · next hi =>
      obtain rfl := Option.some.inj hmake
      exact h.replaced hi hf
    · cases hmake
  | atMatch =>
    simp only [hp] at hf
    simp only [make?, hp, Option.bind_eq_bind, Option.bind_eq_some_iff, Option.some_inj] at hmake
    obtain ⟨line, hline, line', hover, rfl⟩ := hmake
    rw [overwriteNear?_eq] at hover
    split at hover
    · cases hover
    · obtain ⟨start, -, rfl⟩ := Option.map_eq_some_iff.mp hover
      have htidy := h.tidy line (List.mem_of_getElem? hline)
      exact h.set (isTidy_overwrite _ _ htidy hf.1 hf.2) (overwrite_ne_nil _ _ hf.2) _

theorem IsWhole.step {p : Progress} (h : IsWhole closed n p.lines) (hf : KeepsEndings n f) :
    IsWhole closed n (p.step f).lines := by
  unfold Progress.step
  split
  · next hmake => exact h.make hf hmake
  · exact h

theorem IsWhole.steps {p : Progress} {fixes : List Fix} (h : IsWhole closed n p.lines)
    (hfixes : ∀ f ∈ fixes, KeepsEndings n f) :
    IsWhole closed n (fixes.foldl Progress.step p).lines := by
  induction fixes generalizing p with
  | nil => exact h
  | cons f fixes ih =>
    obtain ⟨hf, hfixes⟩ := List.forall_mem_cons.mp hfixes
    exact ih (h.step hf) hfixes

theorem IsWhole.pass {fixes : List Fix} (h : IsWhole closed n ls)
    (hfixes : ∀ f ∈ fixes, KeepsEndings n f) : IsWhole closed n (pass ls fixes).lines :=
  h.steps fun f hf => hfixes f ((order_perm fixes).mem_iff.mp hf)

end Make

theorem isWhole_lines {content : Text} (h : ReturnsEndLines content) :
    IsWhole (Text.endsInNewline content) (lines content).length (lines content) where
  tidy t ht := by
    obtain ⟨l, hl, rfl⟩ := List.mem_map.mp ht
    refine ⟨Text.newline_not_mem_of_mem_cut hl, fun hlast => ?_⟩
    exact Text.return_not_mem_of_mem_cut h hl (List.mem_of_getLast? hlast)
  le_length := Nat.le_refl _
  last := Text.getLast?_lines_ne_nil

theorem ending_ne_unterminated (content : Text) : ending content ≠ .unterminated := by
  unfold ending
  split <;> simp

/-- A text with terminators of one kind has those that its outcomes are joined with. -/
theorem endsAlike_ending {content : Text}
    (h : EndsAlike .lf content ∨ EndsAlike .crlf content) : EndsAlike (ending content) content := by
  unfold ending
  split
  · next hcrlf =>
    obtain ⟨l, hl, hending⟩ := Text.hasCrlf_iff.mp hcrlf
    rcases h with h | h
    · have := h l hl
      simp [hending] at this
    · exact h
  · next hnone =>
    intro l hl
    have hne : l.ending ≠ .crlf := fun hending => hnone (Text.hasCrlf_iff.mpr ⟨l, hl, hending⟩)
    cases hl' : l.ending <;> simp_all

/-- Fixes that keep endings leave a text whose lines all end in its terminator, with the final
newline that it had or had not. -/
theorem cut_apply_of_keepsEndings {content : Text} {fixes : List Fix} (hne : content ≠ [])
    (hreturns : ReturnsEndLines content)
    (hfixes : ∀ f ∈ fixes, KeepsEndings (lines content).length f) :
    Text.cut (apply content fixes).content =
        Text.typeset (ending content) (Text.endsInNewline content)
          (pass (lines content) fixes).lines ∧
      Text.endsInNewline (apply content fixes).content = Text.endsInNewline content := by
  have hwhole := (isWhole_lines hreturns).pass hfixes
  have hclosed : (content.isEmpty || Text.endsInNewline content) = Text.endsInNewline content := by
    rw [List.isEmpty_eq_false_iff.mpr hne, Bool.false_or]
  have hcut : Text.cut (apply content fixes).content =
      Text.typeset (ending content) (Text.endsInNewline content)
        (pass (lines content) fixes).lines := by
    rw [apply, terminator_eq, hclosed, joinLines_eq]
    exact Text.cut_typeset (ending_ne_unterminated content) hwhole.tidy hwhole.last
  have hlines : (pass (lines content) fixes).lines ≠ [] := by
    have hpos : 0 < (lines content).length := by
      simpa [lines, List.length_pos_iff] using mt Text.cut_eq_nil_iff.mp hne
    exact List.ne_nil_of_length_pos (hpos.trans_le hwhole.le_length)
  exact ⟨hcut,
    Text.endsInNewline_of_cut_eq_typeset (ending_ne_unterminated content) hlines hcut⟩

theorem isCut_closed (content : Text) :
    Text.IsCut (content.isEmpty || Text.endsInNewline content) (Text.cut content) := by
  cases content with
  | nil => trivial
  | cons c content => exact Text.isCut_cut (c :: content)

theorem isProper_recast {content t : Text} {l : Line} (hl : l ∈ Text.cut content)
    (h : IsProper ⟨t, l.ending⟩) : IsProper ⟨t, Text.recast (ending content) l.ending⟩ := by
  cases hending : l.ending with
  | unterminated => rwa [hending] at h
  | lf =>
    rw [hending] at h
    unfold ending
    split
    · exact ⟨h.newline, fun hlf => (by cases hlf), fun hopen => (by cases hopen)⟩
    · exact h
  | crlf =>
    rw [ending, if_pos (Text.hasCrlf_iff.mpr ⟨l, hl, hending⟩)]
    rwa [hending] at h

/-- If all lines of the pass are proper with the terminator of the outcome, they are its lines. -/
theorem lines_apply_of_typeset {content : Text} {fixes : List Fix}
    (h : ∀ l ∈ Text.typeset (ending content) (content.isEmpty || Text.endsInNewline content)
      (pass (lines content) fixes).lines, IsProper l) :
    lines (apply content fixes).content = (pass (lines content) fixes).lines := by
  have hcut := Text.cut_flatMap_chars (Text.isCut_typeset (ending_ne_unterminated content) _ _) h
  rw [lines, apply, terminator_eq, joinLines_eq, hcut, Text.map_text_typeset]

theorem lines_apply_of_isProper {content : Text} {fixes : List Fix}
    (hlength : (pass (lines content) fixes).lines.length = (Text.cut content).length)
    (hproper : ∀ x ∈ (pass (lines content) fixes).lines.zip (Text.cut content),
      IsProper ⟨x.1, x.2.ending⟩) :
    lines (apply content fixes).content = (pass (lines content) fixes).lines := by
  refine lines_apply_of_typeset fun l hl => ?_
  set ts := (pass (lines content) fixes).lines
  have htexts : (ts.zip (Text.cut content)).map Prod.fst = ts :=
    List.map_fst_zip (Nat.le_of_eq hlength)
  have hlines : (ts.zip (Text.cut content)).map Prod.snd = Text.cut content :=
    List.map_snd_zip (Nat.le_of_eq hlength.symm)
  have hclosed : Text.IsCut (content.isEmpty || Text.endsInNewline content)
      ((ts.zip (Text.cut content)).map Prod.snd) := by
    rw [hlines]
    exact isCut_closed content
  rw [← htexts, Text.typeset_map (ending content) Prod.snd Prod.fst hclosed] at hl
  obtain ⟨x, hx, rfl⟩ := List.mem_map.mp hl
  exact isProper_recast (List.of_mem_zip hx).2 (hproper x hx)

theorem isProper_of_mem_typeset_lines {content : Text} {l : Line}
    (h : l ∈ Text.typeset (ending content) (content.isEmpty || Text.endsInNewline content)
      (lines content)) : IsProper l := by
  have hclosed : Text.IsCut (content.isEmpty || Text.endsInNewline content)
      ((Text.cut content).map id) := by
    rw [List.map_id]
    exact isCut_closed content
  rw [lines, Text.typeset_map (ending content) id (·.text) hclosed] at h
  obtain ⟨l, hl, rfl⟩ := List.mem_map.mp h
  exact isProper_recast hl (Text.isProper_of_mem_cut hl)

/-- Lines that are put in above a line of the text are read again as they were put in. -/
theorem lines_apply_of_inserts {content : Text} {f : Fix} (h : f.placement.inserts)
    (hrow : f.row < (lines content).length) :
    lines (apply content [f]).content = inserted (lines content) f := by
  have hpass : (pass (lines content) [f]).lines = inserted (lines content) f := by
    rw [pass_of_inserts h (Nat.le_of_lt hrow)]
  have hbelow : (lines content).drop f.row ≠ [] := by simpa using hrow
  -- The lines above and below are typeset as they are without the new ones.
  have hold := Text.typeset_append (ending content)
    (content.isEmpty || Text.endsInNewline content) ((lines content).take f.row) hbelow
  rw [List.take_append_drop] at hold
  rw [← hpass]
  refine lines_apply_of_typeset fun l hl => ?_
  rw [hpass, inserted, Text.typeset_append _ _ _ hbelow, List.map_append] at hl
  rcases List.mem_append.mp hl with hl | hl
  · rcases List.mem_append.mp hl with hl | hl
    · exact isProper_of_mem_typeset_lines (hold ▸ List.mem_append_left _ hl)
    · obtain ⟨t, ht, rfl⟩ := List.mem_map.mp hl
      exact (isTidy_newLines ht).isProper (ending_ne_unterminated content)
  · exact isProper_of_mem_typeset_lines (hold ▸ List.mem_append_right _ hl)

theorem pass_of_replaceLine {ls : List Text} {f : Fix} {n : ℕ} {t : Text}
    (hplacement : f.placement = .replaceLine n) (hn : n < ls.length) (ht : newLines f = [t]) :
    pass ls [f] = ⟨ls.set n t, [f], []⟩ := by
  have hmake : make? f ls = some (ls.set n t) := by
    simp [make?, hplacement, hn, ht, List.set_eq_take_append_cons_drop]
  rw [pass_singleton, Progress.step, hmake]
  rfl

theorem lines_apply_of_set {content : Text} {fixes : List Fix} {n : ℕ} {t : Text}
    (hpass : (pass (lines content) fixes).lines = (lines content).set n t)
    (ht : ∀ l, (Text.cut content)[n]? = some l → IsProper ⟨t, l.ending⟩) :
    lines (apply content fixes).content = (lines content).set n t := by
  have hlength : (pass (lines content) fixes).lines.length = (Text.cut content).length := by
    rw [hpass, List.length_set, lines, List.length_map]
  rw [← hpass]
  refine lines_apply_of_isProper hlength fun x hx => ?_
  obtain ⟨i, hi⟩ := List.mem_iff_getElem?.mp hx
  obtain ⟨htext, hl⟩ := List.getElem?_zip_eq_some.mp hi
  have hline : (lines content)[i]? = some x.2.text := by
    rw [lines, List.getElem?_map, hl, Option.map_some]
  rw [hpass] at htext
  by_cases hn : n = i
  · subst hn
    rw [List.getElem?_set_self (List.getElem?_eq_some_iff.mp hline).1, Option.some_inj] at htext
    rw [← htext]
    exact ht x.2 hl
  · rw [List.getElem?_set_ne hn, hline, Option.some_inj] at htext
    rw [← htext]
    exact Text.isProper_of_mem_cut (List.mem_of_getElem? hl)

end Errata.Edit
