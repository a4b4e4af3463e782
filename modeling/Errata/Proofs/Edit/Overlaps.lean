import Errata.Proofs.Edit.Endings
import Errata.Proofs.Edit.Replacements

/-!
# Reports that overlap and reports that do not

Replacements whose spans lie apart are all made, and the outcome is the text with all of them made
at once. Where spans overlap only one of them can be made in its place. A fix that comes too late is
not dropped for it: it takes the next place where its text stands, even one that nobody reported.
What lies outside of all spans is safe exactly if there is no such place.
-/
namespace Errata.Edit

open Text (Span EndsAlike lineStart newAt covered replaceSpans outsideSpans recast)

def place (content : Text) (f : Fix) : Span :=
  { span f with start := lineStart (Text.cut content) f.row + (span f).start }

variable {content : Text} {fixes : List Fix} {f g : Fix}

theorem zipIdx_lines (content : Text) :
    (Text.lines content).zipIdx = (Text.cut content).zipIdx.map fun x => (x.1.text, x.2) := by
  rw [Text.lines, List.zipIdx_map]
  rfl

theorem joinLines_rewritten (content : Text) (fixes : List Fix) :
    joinLines (terminator content) (content.isEmpty || Text.endsInNewline content)
        (rewritten (Text.lines content) fixes) =
      (Text.cut content).zipIdx.flatMap fun x =>
        replaceSpans (spansIn fixes x.2) 0 x.1.text ++ (recast (ending content) x.1.ending).chars := by
  have hcut : Text.IsCut (content.isEmpty || Text.endsInNewline content)
      ((Text.cut content).zipIdx.map Prod.fst) := by
    rw [List.zipIdx_map_fst]
    exact isCut_closed content
  rw [rewritten, zipIdx_lines, List.map_map, terminator_eq, joinLines_eq,
    Text.typeset_map _ _ _ hcut, List.flatMap_map]
  rfl

theorem apply_of_isQuiet (hexact : ∀ f ∈ fixes, IsExact (Text.lines content) f)
    (hquiet : IsQuiet (Text.lines content) (order fixes)) :
    (apply content fixes).applied = served (order fixes) ∧
      (apply content fixes).content = (Text.cut content).zipIdx.flatMap fun x =>
        replaceSpans (spansIn (served (order fixes)) x.2) 0 x.1.text ++
          (recast (ending content) x.1.ending).chars := by
  have hserves : Serves (Text.lines content) (order fixes) :=
    serves_of_isQuiet (fun f hf => hexact f ((order_perm fixes).mem_iff.mp hf))
      (goesLeft_order fun f hf => (hexact f hf).placement) hquiet
  simp only [apply, pass_eq, hserves.blocks_eq, hserves.made, joinLines_rewritten, and_self]

theorem IsExact.line (h : IsExact (Text.lines content) f) :
    ∃ l, (Text.cut content)[f.row]? = some l ∧ Text.OccursAt f.needle l.text f.violation.col := by
  obtain ⟨line, hline, hocc⟩ := h.occurs
  rw [← h.row_eq, Text.lines, List.getElem?_map] at hline
  obtain ⟨l, hl, rfl⟩ := Option.map_eq_some_iff.mp hline
  exact ⟨l, hl, hocc⟩

theorem covers_place (h : IsExact (Text.lines content) f) {i k : ℕ} {l : Line}
    (hl : (Text.cut content)[i]? = some l) (hk : k < l.chars.length) :
    (place content f).covers (lineStart (Text.cut content) i + k) =
      (decide (f.row = i) && (span f).covers k) := by
  obtain ⟨l', hl', hocc⟩ := h.line
  have hlength := hocc.add_length_le
  have hchars : l'.text.length ≤ l'.chars.length := by simp [Line.chars]
  rw [Bool.eq_iff_iff]
  simp only [Bool.and_eq_true, decide_eq_true_eq, Span.covers_iff, place, span]
  constructor
  · rintro ⟨hstart, hstop⟩
    obtain ⟨m, hm⟩ := Nat.exists_eq_add_of_le hstart
    rw [Nat.add_assoc] at hm
    obtain ⟨rfl, rfl⟩ := Text.lineStart_add_inj hl hl' hk (by omega) hm
    exact ⟨rfl, by omega, by omega⟩
  · rintro ⟨rfl, hstart, hstop⟩
    omega

theorem start_place_iff (h : IsExact (Text.lines content) f) (hne : f.needle ≠ []) {i k : ℕ}
    {l : Line} (hl : (Text.cut content)[i]? = some l) (hk : k < l.chars.length) :
    (place content f).start = lineStart (Text.cut content) i + k ↔
      f.row = i ∧ (span f).start = k := by
  obtain ⟨l', hl', hocc⟩ := h.line
  have hlength := hocc.add_length_le
  have hpos := List.length_pos_of_ne_nil hne
  have hchars : l'.text.length ≤ l'.chars.length := by simp [Line.chars]
  constructor
  · intro hstart
    obtain ⟨rfl, rfl⟩ := Text.lineStart_add_inj hl' hl
      (show f.violation.col < _ by omega) hk hstart
    exact ⟨rfl, rfl⟩
  · rintro ⟨rfl, rfl⟩
    rfl

/-- In a line the spans of the whole text are those of the fixes for that line. -/
theorem replaceSpans_place (hexact : ∀ f ∈ fixes, IsExact (Text.lines content) f)
    (hne : ∀ f ∈ fixes, f.needle ≠ []) {i : ℕ} {l : Line} (hl : (Text.cut content)[i]? = some l) :
    replaceSpans (fixes.map (place content)) (lineStart (Text.cut content) i) l.chars =
      replaceSpans (spansIn fixes i) 0 l.chars := by
  refine Text.replaceSpans_congr fun k hk => ⟨?_, ?_⟩
  · have hfilter : (fixes.filter fun f =>
        decide ((place content f).start = lineStart (Text.cut content) i + k)) =
        (fixes.filter (·.row = i)).filter fun f => decide ((span f).start = k) := by
      rw [List.filter_filter]
      refine List.filter_congr fun f hf => ?_
      rw [Bool.eq_iff_iff]
      simpa [and_comm] using start_place_iff (hexact f hf) (hne f hf) hl hk
    simp only [newAt, spansIn, List.filter_map, List.flatMap_map, Function.comp_def, hfilter,
      Nat.zero_add]
    rfl
  · simp only [covered, spansIn, List.any_map, List.any_filter, Nat.zero_add]
    refine Bool.eq_iff_iff.mpr ?_
    simp only [List.any_eq_true, Function.comp_apply]
    refine exists_congr fun f => and_congr_right fun hf => ?_
    rw [covers_place (hexact f hf) hl hk]

theorem replaceSpans_chars (hexact : ∀ f ∈ fixes, IsExact (Text.lines content) f)
    (hne : ∀ f ∈ fixes, f.needle ≠ []) {i : ℕ} {l : Line} (hl : (Text.cut content)[i]? = some l) :
    replaceSpans (spansIn fixes i) 0 l.chars =
      replaceSpans (spansIn fixes i) 0 l.text ++ l.ending.chars := by
  rw [Line.chars, Text.replaceSpans_append, Text.replaceSpans_eq_self (t := l.ending.chars)]
  intro k _ s hs
  obtain ⟨f, hf, rfl⟩ := List.mem_map.mp hs
  obtain ⟨hmem, hrow⟩ := List.mem_filter.mp hf
  obtain ⟨l', hl', hocc⟩ := (hexact f hmem).line
  obtain rfl : f.row = i := by simpa using hrow
  obtain rfl : l' = l := Option.some.inj (hl'.symm.trans hl)
  have hlength := hocc.add_length_le
  have hpos := List.length_pos_of_ne_nil (hne f hmem)
  rw [← Bool.not_eq_true, Span.covers_iff]
  simp only [span]
  omega

theorem Meet.symm (h : Meet f g) : Meet g f := by
  obtain ⟨hrow, i, hf, hg⟩ := h
  exact ⟨hrow.symm, i, hg, hf⟩

theorem isQuiet_of_apart {ls : List Text} (hapart : fixes.Pairwise fun f g => ¬Meet f g) :
    IsQuiet ls fixes := by
  induction fixes using List.reverseRecOn with
  | nil => simp [IsQuiet, AtEachTurn]
  | append_singleton fixes f ih =>
    obtain ⟨hpre, -, hlast⟩ := List.pairwise_append.mp hapart
    refine atEachTurn_concat.mpr ⟨ih hpre, ?_⟩
    rintro ⟨g, hg, hmeet⟩
    exact absurd hmeet (hlast g (mem_served hg).1 f (by simp))

theorem spansIn_apart (hapart : fixes.Pairwise fun f g => ¬Meet f g) (i : ℕ) :
    (spansIn fixes i).Pairwise fun s t => ¬s.Meets t := by
  rw [spansIn, List.pairwise_map]
  refine (hapart.filter fun f => decide (f.row = i)).imp_of_mem fun {f g} hf hg hmeet hspans => ?_
  have hf : f.row = i := by simpa using (List.mem_filter.mp hf).2
  have hg : g.row = i := by simpa using (List.mem_filter.mp hg).2
  exact hmeet ⟨hf.trans hg.symm, hspans⟩

/-- Replacements of texts that stand exactly where they are reported, in spans that lie apart, are
all made, whatever the order they come in: the outcome is the text with every span replaced at once
and every other character as it was. -/
theorem apart_replaced_at_once (hends : EndsAlike .lf content ∨ EndsAlike .crlf content)
    (hexact : ∀ f ∈ fixes, IsExact (Text.lines content) f) (hne : ∀ f ∈ fixes, f.needle ≠ [])
    (hapart : fixes.Pairwise fun f g => ¬Meet f g) :
    (apply content fixes).applied.Perm fixes ∧ (apply content fixes).skipped = [] ∧
      (apply content fixes).content = replaceSpans (fixes.map (place content)) 0 content := by
  have hperm := order_perm fixes
  have happart : (order fixes).Pairwise fun f g => ¬Meet f g :=
    hapart.perm hperm.symm fun hfg hgf => hfg hgf.symm
  have hserved : served (order fixes) = order fixes :=
    served_eq_self (fun f hf => hne f (hperm.mem_iff.mp hf)) happart
  obtain ⟨happlied, hcontent⟩ := apply_of_isQuiet hexact (isQuiet_of_apart happart)
  rw [hserved] at happlied hcontent
  have hskipped : (apply content fixes).skipped = [] := by
    have hlength := (apply_perm content fixes).length_eq
    rw [List.length_append, happlied, hperm.length_eq] at hlength
    exact List.length_eq_zero_iff.mp (by omega)
  refine ⟨happlied ▸ hperm, hskipped, ?_⟩
  rw [hcontent, Text.replaceSpans_cut]
  refine List.flatMap_congr fun x hx => ?_
  have hl : (Text.cut content)[x.2]? = some x.1 := List.mem_zipIdx_iff_getElem?.mp hx
  have hending : recast (ending content) x.1.ending = x.1.ending := by
    rcases endsAlike_ending hends x.1 (List.mem_of_getElem? hl) with h | h <;> rw [h]
    · rfl
    · cases hcontent : ending content <;> rfl
  have hspans : (spansIn fixes x.2).Perm (spansIn (order fixes) x.2) :=
    (hperm.symm.filter _).map span
  have hpos : ∀ s ∈ spansIn fixes x.2, 0 < s.length := by
    intro s hs
    obtain ⟨f, hf, rfl⟩ := List.mem_map.mp hs
    exact List.length_pos_of_ne_nil (hne f (List.mem_filter.mp hf).1)
  rw [hending, replaceSpans_place hexact hne hl, replaceSpans_chars hexact hne hl,
    Text.replaceSpans_of_perm hspans hpos (spansIn_apart hapart x.2)]

/-- A fix that writes `new` over `target`, which is reported at a line and a column. -/
def overwriting (line column : ℕ) (target new : Text) : Fix :=
  .new ⟨"a.adoc", "EntityReference", line, column, [], .error, target, none,
    "AsciiDocDITA.EntityReference", none⟩ new .atMatch .fully

/-- Two entities that touch and one on the next line, not in the order in which they are replaced. -/
def threeApart : List Fix :=
  [overwriting 1 3 "&lt;" "\x7blt\x7d", overwriting 2 3 "&amp;" "\x7bamp\x7d",
    overwriting 1 7 "&gt;" "\x7bgt\x7d"]

theorem apart_replaced_at_once_threeApart :
    (apply "ä &lt;&gt;\r\n→ &amp;" threeApart).skipped = [] ∧
      (apply "ä &lt;&gt;\r\n→ &amp;" threeApart).content =
        "ä \x7blt\x7d\x7bgt\x7d\r\n→ \x7bamp\x7d" := by
  have hexact : ∀ f ∈ threeApart, IsExact (Text.lines "ä &lt;&gt;\r\n→ &amp;") f := by
    simp only [threeApart, List.forall_mem_cons, List.not_mem_nil, false_imp_iff, implies_true,
      and_true]
    exact ⟨⟨rfl, "ä &lt;&gt;", by decide +kernel, by decide +kernel⟩,
      ⟨rfl, "→ &amp;", by decide +kernel, by decide +kernel⟩,
      ⟨rfl, "ä &lt;&gt;", by decide +kernel, by decide +kernel⟩⟩
  obtain ⟨-, hskipped, hcontent⟩ := apart_replaced_at_once (.inr (by decide +kernel)) hexact
    (by decide +kernel) (by decide +kernel)
  exact ⟨hskipped, hcontent.trans (by decide +kernel)⟩

theorem chars_sublist_recast {l : Line} (hl : l ∈ Text.cut content) :
    l.ending.chars.Sublist (recast (ending content) l.ending).chars := by
  cases hending : l.ending with
  | unterminated => exact List.Sublist.refl _
  | lf =>
    unfold ending
    split <;> decide
  | crlf =>
    rw [ending, if_pos (Text.hasCrlf_iff.mpr ⟨l, hl, hending⟩)]
    exact List.Sublist.refl _

theorem outsideSpans_line_sublist {served : List Fix} (hserved : served ⊆ fixes)
    (hexact : ∀ f ∈ fixes, IsExact (Text.lines content) f) {i : ℕ} {l : Line}
    (hl : (Text.cut content)[i]? = some l) :
    (outsideSpans (fixes.map (place content)) (lineStart (Text.cut content) i) l.chars).Sublist
      (replaceSpans (spansIn served i) 0 l.text ++ (recast (ending content) l.ending).chars) := by
  rw [outsideSpans, Line.chars, Text.replaceSpans_append]
  refine List.Sublist.append (Text.outsideSpans_sublist fun k hk hcovered => ?_) ?_
  · obtain ⟨s, hs, hcovers⟩ := Text.covered_eq_true_iff.mp hcovered
    obtain ⟨f, hf, rfl⟩ := List.mem_map.mp hs
    obtain ⟨hmem, hrow⟩ := List.mem_filter.mp hf
    refine Text.covered_eq_true_iff.mpr
      ⟨_, List.mem_map_of_mem (hserved hmem), ?_⟩
    rw [covers_place (hexact f (hserved hmem)) hl (by simp [Line.chars]; omega), hrow]
    simpa using hcovers
  · refine List.Sublist.trans ?_ (chars_sublist_recast (List.mem_of_getElem? hl))
    have hsublist : (outsideSpans (fixes.map (place content))
        (lineStart (Text.cut content) i + l.text.length) l.ending.chars).Sublist
        (replaceSpans [] 0 l.ending.chars) :=
      Text.outsideSpans_sublist (by simp [covered])
    rwa [Text.replaceSpans_nil] at hsublist

/-- What overlapping reports can do: everything outside of the reported spans is kept and every fix
whose span has been consumed is skipped, exactly if no fix that comes too late for its span finds
its text anywhere in what its line has become by then. In that case every span goes to the first fix
that comes for a part of it. -/
theorem overlapping_safe_iff (hexact : ∀ f ∈ fixes, IsExact (Text.lines content) f) :
    ((outsideSpans (fixes.map (place content)) 0 content).Sublist (apply content fixes).content ∧
        SkipsConsumed (Text.lines content) (order fixes) ↔
      IsQuiet (Text.lines content) (order fixes)) ∧
    (IsQuiet (Text.lines content) (order fixes) →
      (apply content fixes).applied = served (order fixes)) := by
  have hperm := order_perm fixes
  have hskips : SkipsConsumed (Text.lines content) (order fixes) ↔ _ :=
    skipsConsumed_iff (fun f hf => hexact f (hperm.mem_iff.mp hf))
      (goesLeft_order fun f hf => (hexact f hf).placement)
  refine ⟨?_, fun hquiet => (apply_of_isQuiet hexact hquiet).1⟩
  rw [hskips, and_iff_right_iff_imp]
  intro hquiet
  rw [outsideSpans, Text.replaceSpans_cut, (apply_of_isQuiet hexact hquiet).2]
  refine List.Sublist.flatMap_right _ fun x hx => ?_
  exact outsideSpans_line_sublist (fun f hf => hperm.mem_iff.mp (mem_served hf).1) hexact
    (List.mem_zipIdx_iff_getElem?.mp hx)

def reportedTwice : List Fix :=
  [overwriting 1 1 "&amp;" "\x7bamp\x7d", overwriting 1 1 "&amp;" "\x7bamp\x7d"]

theorem isExact_reportedTwice {line : Text} {rest : List Text} (h : "&amp;".toList <+: line) :
    ∀ f ∈ reportedTwice, IsExact (line :: rest) f := by
  have hexact : IsExact (line :: rest) (overwriting 1 1 "&amp;" "\x7bamp\x7d") :=
    ⟨rfl, line, rfl, Nat.zero_le _, h⟩
  simpa [reportedTwice] using hexact

theorem order_reportedTwice : order reportedTwice = reportedTwice :=
  List.mergeSort_of_pairwise (by decide)

/-- The line has the entity only once, so the second fix is skipped. -/
theorem overlapping_safe_reportedTwice :
    (outsideSpans (reportedTwice.map (place "&amp; x\n")) 0 "&amp; x\n").Sublist
        (apply "&amp; x\n" reportedTwice).content ∧
      SkipsConsumed (Text.lines "&amp; x\n") (order reportedTwice) := by
  have hlines : Text.lines "&amp; x\n" = ["&amp; x"] := by decide +kernel
  refine (overlapping_safe_iff ?_).1.mpr ?_
  · rw [hlines]
    exact isExact_reportedTwice (by decide +kernel)
  · rw [order_reportedTwice]
    decide +kernel

/-- The entity stands on the line a second time, as code that nobody reported: the second fix is made
there. -/
theorem repeated_report_strays :
    (∀ f ∈ reportedTwice, IsExact (Text.lines "&amp; `&amp;`\n") f) ∧
      (apply "&amp; `&amp;`\n" reportedTwice).content = "\x7bamp\x7d `\x7bamp\x7d`\n" ∧
      ¬(outsideSpans (reportedTwice.map (place "&amp; `&amp;`\n")) 0 "&amp; `&amp;`\n").Sublist
        (apply "&amp; `&amp;`\n" reportedTwice).content := by
  have hlines : Text.lines "&amp; `&amp;`\n" = ["&amp; `&amp;`"] := by decide +kernel
  have hcontent : (apply "&amp; `&amp;`\n" reportedTwice).content =
      "\x7bamp\x7d `\x7bamp\x7d`\n" := by
    rw [apply, pass, order_reportedTwice]
    decide +kernel
  refine ⟨?_, hcontent, ?_⟩
  · rw [hlines]
    exact isExact_reportedTwice (by decide +kernel)
  · rw [hcontent]
    decide +kernel

end Errata.Edit
