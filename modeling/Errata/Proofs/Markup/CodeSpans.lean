import Errata.Proofs.Markup.Quotes

/-!
# Code spans

A line has code spans in single and in double backticks. The two forms for them do not know of each
other: in a span in double backticks the form for single ones sees a span of its own, and goes on
with the last backtick. With a backtick behind it the plain text between the two is taken for code.
So a span in double backticks is guarded exactly only at the end of the line.
-/
namespace Errata.Markup.Inline

open Text

variable {before : Text} {q : Quote} {quotes : List Quote} {start : ℕ}

structure IsCodeLine (before : Text) (quotes : List Quote) : Prop
    extends Alternates before quotes where
  mark : ∀ q ∈ quotes, q.mark = ['\x60'] ∨ q.mark = ['\x60', '\x60']
  /-- A line has no line break. -/
  unbroken : ∀ q ∈ quotes, '\n' ∉ q.body

theorem IsCodeLine.tail (h : IsCodeLine before (q :: quotes)) : IsCodeLine q.behind quotes where
  toAlternates := h.toAlternates.tail
  mark x hx := h.mark x (List.mem_cons_of_mem q hx)
  unbroken x hx := h.unbroken x (List.mem_cons_of_mem q hx)

section Texts

variable {t body rest : Text}

theorem spansFrom_code_append (h : '\x60' ∉ t) :
    spansFrom code start (t ++ rest) = spansFrom code (start + t.length) rest :=
  spansFrom_append_of_not_mem (fun _ _ _ => head?_of_code) h

theorem spansFrom_fenced_append {m : Char} {mark : Text} (h : m ∉ t) :
    spansFrom (fenced (m :: mark)) start (t ++ rest) =
      spansFrom (fenced (m :: mark)) (start + t.length) rest :=
  spansFrom_append_of_not_mem (fun _ _ _ => head?_of_fenced) h

/-- A text between two backticks is taken for code, whatever the backticks belong to. -/
theorem spansFrom_code_here (hbody : '\x60' ∉ body) (hne : body ≠ []) :
    spansFrom code start ('\x60' :: (body ++ '\x60' :: rest)) =
      ⟨start, start + (body.length + 2)⟩ :: spansFrom code (start + (body.length + 2)) rest := by
  rw [spansFrom_of_some (List.cons_ne_nil _ _)
    (code_eq_some_iff.mpr ⟨body, rest, rfl, hbody, hne, rfl⟩)]
  simp [Hit.whole]

theorem spansFrom_code_cons : spansFrom code start ('\x60' :: '\x60' :: rest) =
    spansFrom code (start + 1) ('\x60' :: rest) := by
  refine spansFrom_cons_of_none ?_
  cases hhit : code (start == 0) ('\x60' :: '\x60' :: rest) with
  | none => rfl
  | some hit =>
    obtain ⟨body, r, heq, hbody, hne, -⟩ := code_eq_some_iff.mp hhit
    obtain ⟨c, body, rfl⟩ := List.exists_cons_of_ne_nil hne
    obtain rfl := (List.cons.inj (List.cons.inj heq).2).1
    exact absurd List.mem_cons_self hbody

theorem spansFrom_fenced_cons (h : rest.head? ≠ some '\x60') :
    spansFrom (fenced ['\x60', '\x60']) start ('\x60' :: rest) =
      spansFrom (fenced ['\x60', '\x60']) (start + 1) rest := by
  refine spansFrom_cons_of_none ?_
  cases hhit : fenced ['\x60', '\x60'] (start == 0) ('\x60' :: rest) with
  | none => rfl
  | some hit =>
    obtain ⟨body, r, heq, -⟩ := exists_of_fenced hhit
    rw [(List.cons.inj heq).2] at h
    exact absurd rfl h

theorem spansFrom_fenced_single (ht : '\x60' ∉ t) (hbody : '\x60' ∉ body) (hne : body ≠ [])
    (hrest : rest.head? ≠ some '\x60') :
    spansFrom (fenced ['\x60', '\x60']) start (t ++ '\x60' :: (body ++ '\x60' :: rest)) =
      spansFrom (fenced ['\x60', '\x60']) (start + t.length + (body.length + 2)) rest := by
  rw [spansFrom_fenced_append ht, spansFrom_fenced_cons (head?_append_cons_ne hbody hne),
    spansFrom_fenced_append hbody, spansFrom_fenced_cons hrest]
  congr 1
  omega

theorem spansFrom_fenced_double (ht : '\x60' ∉ t) (hbody : '\x60' ∉ body) (hne : body ≠ [])
    (hline : '\n' ∉ body) :
    spansFrom (fenced ['\x60', '\x60']) start
        (t ++ '\x60' :: '\x60' :: (body ++ '\x60' :: '\x60' :: rest)) =
      ⟨start + t.length, start + t.length + (body.length + 4)⟩ ::
        spansFrom (fenced ['\x60', '\x60']) (start + t.length + (body.length + 4)) rest := by
  have hhit : ∀ atStart, fenced ['\x60', '\x60'] atStart
      ('\x60' :: '\x60' :: (body ++ '\x60' :: '\x60' :: rest)) =
        some (.whole (body.length + 3)) := by
    intro atStart
    refine (fenced_append hbody hline hne).trans ?_
    congr 2
    simp only [List.length_cons, List.length_nil]
    omega
  rw [spansFrom_fenced_append ht, spansFrom_of_some (List.cons_ne_nil _ _) (hhit _)]
  simp [Hit.whole]

/-- In a quote in double backticks the form for code sees one in single backticks, and goes on with
the last backtick. -/
theorem spansFrom_code_double (ht : '\x60' ∉ t) (hbody : '\x60' ∉ body) (hne : body ≠ []) :
    spansFrom code start (t ++ '\x60' :: '\x60' :: (body ++ '\x60' :: rest)) =
      ⟨start + t.length + 1, start + t.length + (body.length + 3)⟩ ::
        spansFrom code (start + t.length + (body.length + 3)) rest := by
  have hstop : start + t.length + 1 + (body.length + 2) = start + t.length + (body.length + 3) := by
    omega
  rw [spansFrom_code_append ht, spansFrom_code_cons, spansFrom_code_here hbody hne, hstop]

theorem spansFrom_code_last (h : '\x60' ∉ rest) : spansFrom code start ('\x60' :: rest) = [] := by
  have hnone : code (start == 0) ('\x60' :: rest) = none := by
    cases hhit : code (start == 0) ('\x60' :: rest) with
    | none => rfl
    | some hit =>
      obtain ⟨body, r, heq, -⟩ := code_eq_some_iff.mp hhit
      rw [(List.cons.inj heq).2] at h
      exact absurd (List.mem_append_right _ List.mem_cons_self) h
  rw [spansFrom_cons_of_none hnone, spansFrom_code h]

end Texts

theorem IsCodeLine.exists_rest (h : IsCodeLine before (q :: quotes)) :
    ∃ rest, lineOf before (q :: quotes) = before ++ '\x60' :: rest := by
  rcases h.mark q List.mem_cons_self with hmark | hmark <;>
    exact ⟨_, by rw [lineOf, Quote.whole, hmark]; rfl⟩

/-- The columns of a quote in double backticks, and those of the code span in it. -/
theorem sameColumns_inner {a n : ℕ} :
    SameColumns [⟨a, a + (n + 4)⟩, ⟨a + 1, a + (n + 3)⟩] [⟨a, a + (n + 4)⟩] := by
  intro column
  rw [Bool.eq_iff_iff]
  simp only [List.any_cons, List.any_nil, Bool.or_eq_true, covers_iff, Bool.false_eq_true, or_false]
  omega

theorem SameColumns.swap {a b c : List Span} {span : Span} :
    SameColumns (a ++ span :: b) c ↔ SameColumns (span :: (a ++ b)) c := by
  refine forall_congr' fun column => ?_
  simp [Bool.or_left_comm]

theorem lineOf_cons_of_double (h : q.mark = ['\x60', '\x60']) : lineOf before (q :: quotes) =
    before ++ '\x60' :: '\x60' :: (q.body ++ '\x60' :: '\x60' :: lineOf q.behind quotes) := by
  simp [lineOf, Quote.whole, h]

/-- Between a quote in double backticks and the next quote the plain text is taken for code. -/
theorem IsCodeLine.not_sameColumns {r : Quote} {spans : List Span}
    (h : IsCodeLine before (q :: r :: quotes)) (hmark : q.mark = ['\x60', '\x60'])
    (hcode : ∀ span ∈ spansFrom code start (lineOf before (q :: r :: quotes)), span ∈ spans) :
    ¬SameColumns spans (quotesFrom start before (q :: r :: quotes)) := by
  intro hsame
  have hne := h.behind_ne_nil (List.cons_ne_nil r quotes)
  have hlength := List.length_pos_of_ne_nil hne
  have hwhole : q.whole.length = q.body.length + 4 := by
    rw [q.length_whole, hmark, List.length_cons, List.length_singleton]
    omega
  obtain ⟨rest, hrest⟩ := h.tail.exists_rest
  rw [lineOf_cons_of_double hmark, spansFrom_code_double h.plain.tick
    (h.body q List.mem_cons_self).tick (h.filled q List.mem_cons_self), hrest,
    spansFrom_code_here h.tail.plain.tick hne] at hcode
  rw [quotesFrom, hwhole] at hsame
  generalize start + before.length = here at hcode hsame
  -- The column right behind the quote is in that code, and in no quote.
  have hguarded : Span.covers ⟨here + (q.body.length + 3),
      here + (q.body.length + 3) + (q.behind.length + 2)⟩ (here + (q.body.length + 4)) := by
    rw [covers_iff]
    dsimp only
    omega
  obtain ⟨span, hspan, hcovers⟩ := hsame.exists_covers
    (hcode _ (List.mem_cons_of_mem _ List.mem_cons_self)) hguarded
  rw [covers_iff] at hcovers
  rcases List.mem_cons.mp hspan with rfl | hspan
  · exact absurd hcovers.2 (lt_irrefl _)
  · have := start_le_of_mem_quotesFrom hspan
    omega

/-- The two forms for code cover exactly the quotes if none but the last one is in double
backticks. -/
theorem sameColumns_code_iff (h : IsCodeLine before quotes) :
    SameColumns (spansFrom (fenced ['\x60', '\x60']) start (lineOf before quotes) ++
        spansFrom code start (lineOf before quotes)) (quotesFrom start before quotes) ↔
      ∀ q ∈ quotes.dropLast, q.mark = ['\x60'] := by
  induction quotes generalizing start before with
  | nil =>
    have hnone : spansFrom (fenced ['\x60', '\x60']) start before = [] :=
      spansFrom_fenced (not_infix_of_not_mem h.plain.tick List.mem_cons_self)
    simp [lineOf, quotesFrom, hnone, spansFrom_code h.plain.tick, SameColumns]
  | cons q quotes ih =>
    have hbody := (h.body q List.mem_cons_self).tick
    have hfilled := h.filled q List.mem_cons_self
    rw [forall_dropLast_cons_iff]
    rcases h.mark q List.mem_cons_self with hmark | hmark
    · -- Both forms go on right behind a quote in single backticks.
      have hwhole : q.whole.length = q.body.length + 2 := by
        rw [q.length_whole, hmark, List.length_singleton]
        omega
      rw [lineOf_cons_of_mark hmark, spansFrom_fenced_single h.plain.tick hbody hfilled
        (h.head?_tail_ne fun t ht => ht.tick), spansFrom_code_append h.plain.tick,
        spansFrom_code_here hbody hfilled, quotesFrom, hwhole, SameColumns.swap,
        sameColumns_cons_iff, ih h.tail]
      · simp [hmark]
      · intro s hs
        rcases List.mem_append.mp hs with hs | hs <;> exact start_le_of_mem_spansFrom hs
      · exact fun s hs => (Nat.le_add_right _ _).trans (start_le_of_mem_quotesFrom hs)
    · cases quotes with
      | nil =>
        have hbehind := h.tail.plain.tick
        have hwhole : q.whole.length = q.body.length + 4 := by
          rw [q.length_whole, hmark, List.length_cons, List.length_singleton]
          omega
        refine iff_of_true ?_ (by simp)
        rw [lineOf_cons_of_double hmark, spansFrom_fenced_double h.plain.tick hbody hfilled
          (h.unbroken q List.mem_cons_self), spansFrom_code_double h.plain.tick hbody hfilled,
          lineOf, spansFrom_fenced (not_infix_of_not_mem hbehind List.mem_cons_self),
          spansFrom_code_last hbehind, quotesFrom, hwhole]
        exact sameColumns_inner
      | cons r quotes =>
        refine iff_of_false (h.not_sameColumns hmark fun span hspan => ?_) (by simp [hmark])
        exact List.mem_append_right _ hspan

/-- A line of code spans is guarded exactly, every column of a span and no other, if and only if
no span but the last one is in double backticks. -/
theorem code_guarded_iff (h : IsCodeLine before quotes) :
    (∀ column, isLiteral (lineOf before quotes) column =
        (quotesFrom 0 before quotes).any (·.covers column)) ↔
      ∀ q ∈ quotes.dropLast, q.mark = ['\x60'] := by
  have htick : ∀ q ∈ quotes, ∀ c ∈ q.mark, c = '\x60' := by
    intro q hq c hc
    rcases h.mark q hq with hmark | hmark <;> simpa [hmark] using hc
  have hplus : '+' ∉ lineOf before quotes :=
    h.not_mem (fun t ht => ht.plus) fun q hq hmem => absurd (htick q hq _ hmem) (by decide)
  have hpass : ¬"pass:".toList <:+: lineOf before quotes := by
    refine h.not_pass fun q hq => ⟨?_, fun c hc => ?_⟩
    · rcases h.mark q hq with hmark | hmark <;> simp [hmark]
    · rw [htick q hq c hc]
      decide
  have hspans : spans (lineOf before quotes) =
      spansFrom (fenced ['\x60', '\x60']) 0 (lineOf before quotes) ++
        spansFrom code 0 (lineOf before quotes) := by
    simp only [spans, forms, List.flatMap_cons, List.flatMap_nil]
    rw [spansFrom_passMacro hpass, spansFrom_constrained hplus,
      spansFrom_fenced (not_infix_of_not_mem hplus (by simp)),
      spansFrom_fenced (not_infix_of_not_mem hplus (by simp))]
    simp
  rw [← sameColumns_code_iff h, ← hspans]
  rfl

def doubleLast : List Quote := [⟨['\x60'], "b", " c "⟩, ⟨['\x60', '\x60'], "d", "."⟩]

theorem code_guarded_doubleLast : IsCodeLine "é " doubleLast ∧
    ∀ column, isLiteral "é `b` c ``d``." column =
      (quotesFrom 0 "é " doubleLast).any (·.covers column) := by
  have hline : IsCodeLine "é " doubleLast :=
    { plain := by decide
      behind := by decide
      body := by decide
      filled := by decide
      apart := by decide
      mark := by decide
      unbroken := by decide }
  exact ⟨hline, (code_guarded_iff hline).mpr (by decide)⟩

/-- A span in double backticks, and one in single backticks behind it: the text between the two is
guarded and the second one is not. -/
theorem code_behind_double_unguarded : ¬∀ (before : Text) (quotes : List Quote),
    IsCodeLine before quotes → ∀ column, isLiteral (lineOf before quotes) column =
      (quotesFrom 0 before quotes).any (·.covers column) := by
  intro h
  have hline : IsCodeLine [] [⟨['\x60', '\x60'], "a", " b "⟩, ⟨['\x60'], "c", []⟩] :=
    { plain := by decide
      behind := by decide
      body := by decide
      filled := by decide
      apart := by decide
      mark := by decide
      unbroken := by decide }
  have hdiffer : isLiteral
      (lineOf [] [⟨['\x60', '\x60'], "a", " b "⟩, ⟨['\x60'], "c", []⟩]) 9 ≠
      (quotesFrom 0 [] [⟨['\x60', '\x60'], "a", " b "⟩, ⟨['\x60'], "c", []⟩]).any
        (·.covers 9) := by
    decide +kernel
  exact hdiffer (h _ _ hline 9)

end Errata.Markup.Inline
