import Errata.Proofs.Markup.Quotes

/-!
# Constrained passthroughs

The form for constrained passthroughs only has to look at the characters next to the marks, but it
takes them up. The next passthrough of the line is found only if another character is left to stand
before it, so a passthrough one character behind another is not guarded.
-/
namespace Errata.Markup.Inline

open Text

variable {form : Form} {before : Text} {q : Quote} {quotes : List Quote} {start : ℕ}

structure IsPlusLine (before : Text) (quotes : List Quote) : Prop
    extends Alternates before quotes where
  mark : ∀ q ∈ quotes, q.mark = ['+']
  tight : ∀ q ∈ quotes, IsTight q.body
  /-- No word character stands right behind a passthrough, and none right before one. -/
  next : ∀ q ∈ quotes, ¬q.behind.head?.any isWord
  first : quotes ≠ [] → ¬before.getLast?.any isWord
  inner : ∀ q ∈ quotes.dropLast, ¬q.behind.getLast?.any isWord

theorem Bare.tail {t : Text} (h : Bare t) : Bare t.tail where
  tick hmem := h.tick (List.mem_of_mem_tail hmem)
  plus hmem := h.plus (List.mem_of_mem_tail hmem)
  pass hpass := h.pass (hpass.trans (List.tail_suffix t).isInfix)

/-- What is left of a line when a passthrough and the character behind it are taken up. -/
theorem IsPlusLine.rest (h : IsPlusLine before (q :: quotes)) :
    IsPlusLine q.behind.tail quotes where
  plain := h.toAlternates.tail.plain.tail
  behind := h.toAlternates.tail.behind
  body := h.toAlternates.tail.body
  filled := h.toAlternates.tail.filled
  apart := h.toAlternates.tail.apart
  mark x hx := h.mark x (List.mem_cons_of_mem q hx)
  tight x hx := h.tight x (List.mem_cons_of_mem q hx)
  next x hx := h.next x (List.mem_cons_of_mem q hx)
  first hne := by
    rw [List.getLast?_tail]
    split
    · simp
    · exact (forall_dropLast_cons_iff.mp h.inner).1 hne
  inner := (forall_dropLast_cons_iff.mp h.inner).2

theorem IsPlusLine.endsPlus (h : IsPlusLine before (q :: quotes)) :
    EndsPlus (lineOf q.behind quotes) := by
  intro c hc
  refine ⟨?_, fun hplus => h.head?_tail_ne (fun t ht => ht.plus) (hplus ▸ hc)⟩
  rw [h.head?_tail] at hc
  have hnext := h.next q List.mem_cons_self
  rwa [Option.mem_def.mp hc, Option.any_some] at hnext

section Texts

variable {t body rest : Text}

theorem spansFrom_constrained_behind :
    spansFrom form (start + (body.length + 2 + (!rest.isEmpty).toNat))
        (('+' :: (body ++ '+' :: rest)).drop (body.length + 2 + (!rest.isEmpty).toNat)) =
      spansFrom form (start + (body.length + 2) + 1) rest.tail := by
  have hdrop : ∀ n, ('+' :: (body ++ '+' :: rest)).drop (body.length + 2 + n) = rest.drop n := by
    intro n
    have hsplit : '+' :: (body ++ '+' :: rest) = '+' :: (body ++ ['+']) ++ rest := by simp
    have hlength : ('+' :: (body ++ ['+'])).length = body.length + 2 := by simp
    rw [hsplit, ← hlength, List.drop_length_add_append]
  rw [hdrop]
  cases rest with
  | nil => simp [spansFrom_nil]
  | cons c rest => rfl

theorem spansFrom_constrained_append (ht : '+' ∉ t) (hrest : rest.head? ≠ some '+') :
    spansFrom constrained start (t ++ rest) = spansFrom constrained (start + t.length) rest := by
  have hhead : ∀ v, v <:+ t → (v ++ rest).head? ≠ some '+' := by
    intro v hv
    cases v with
    | nil => exact hrest
    | cons d v =>
      rw [List.cons_append, List.head?_cons]
      exact fun hd => ht (hv.subset (by simp [Option.some.inj hd]))
  refine spansFrom_append fun v hv hne atStart => ?_
  obtain ⟨d, v, rfl⟩ := List.exists_cons_of_ne_nil hne
  refine constrained_cons_eq_none (fun hd => hhead _ hv ?_)
    (constrainedHere?_eq_none (hhead v ((List.suffix_cons d v).trans hv)))
  simp [hd]

/-- The next quote is a passthrough if its first mark is at the start of the line or behind another
character. The character behind it is taken up. -/
theorem spansFrom_constrained_quote (ht : '+' ∉ t) (hstart : t ≠ [] ∨ start = 0)
    (hlast : ¬t.getLast?.any isWord) (hbody : '+' ∉ body) (htight : IsTight body)
    (hrest : EndsPlus rest) :
    spansFrom constrained start (t ++ '+' :: (body ++ '+' :: rest)) =
      ⟨start + t.length, start + t.length + (body.length + 2)⟩ ::
        spansFrom constrained (start + t.length + (body.length + 2) + 1) rest.tail := by
  have hhere : constrainedHere? ('+' :: (body ++ '+' :: rest)) =
      some (body.length + 2, !rest.isEmpty) :=
    constrainedHere?_eq_some_iff.mpr ⟨body, rest, rfl, hbody, htight, hrest, rfl⟩
  by_cases hnil : t = []
  · subst hnil
    obtain rfl : start = 0 := by simpa using hstart
    obtain ⟨hit, hhit, hlength, hspan⟩ := constrained_atStart hhere
    rw [List.nil_append, spansFrom_of_some (List.cons_ne_nil _ _) hhit, hlength, hspan,
      spansFrom_constrained_behind]
    simp
  · -- The last character in front of the quote is part of the match.
    obtain ⟨t, c, rfl⟩ : ∃ t' c, t = t' ++ [c] := ⟨_, _, (List.dropLast_append_getLast hnil).symm⟩
    rw [List.mem_append, List.mem_singleton, not_or] at ht
    have hc : c ≠ '+' := Ne.symm ht.2
    obtain ⟨hit, hhit, hlength, hspan⟩ := constrained_cons (by simpa using hlast) hc hhere
    rw [List.append_assoc, List.singleton_append,
      spansFrom_constrained_append ht.1 (by simpa using hc),
      spansFrom_of_some (List.cons_ne_nil _ _) (hhit _), hlength, hspan]
    have hdrop : 1 + (body.length + 2) + (!rest.isEmpty).toNat =
        body.length + 2 + (!rest.isEmpty).toNat + 1 := by omega
    have hnext : start + t.length + (body.length + 2 + (!rest.isEmpty).toNat + 1) =
        start + (t.length + 1) + (body.length + 2 + (!rest.isEmpty).toNat) := by omega
    rw [hdrop, List.drop_succ_cons, hnext, spansFrom_constrained_behind, List.length_append,
      List.length_singleton]
    simp only [List.cons.injEq, Span.mk.injEq, and_true]
    omega

end Texts

theorem quotesFrom_tail (h : before ≠ []) :
    quotesFrom (start + 1) before.tail quotes = quotesFrom start before quotes := by
  obtain ⟨c, before, rfl⟩ := List.exists_cons_of_ne_nil h
  cases quotes with
  | nil => rfl
  | cons q quotes => simp [quotesFrom, Nat.add_comm, Nat.add_left_comm]

theorem lineOf_tail (h : before ≠ []) :
    (lineOf before quotes).tail = lineOf before.tail quotes := by
  obtain ⟨c, before, rfl⟩ := List.exists_cons_of_ne_nil h
  cases quotes <;> rfl

/-- A quote whose first mark begins the rest of the line is not seen. -/
theorem not_sameColumns_of_unseen (hmark : q.mark = ['+']) (hstart : start ≠ 0) :
    ¬SameColumns (spansFrom constrained start (lineOf [] (q :: quotes)))
      (quotesFrom start [] (q :: quotes)) := by
  intro hsame
  have hnone : constrained (start == 0) ('+' :: (q.body ++ '+' :: lineOf q.behind quotes)) =
      none := by
    rw [beq_false_of_ne hstart, constrained_plus_eq_none]
  rw [lineOf_cons_of_mark hmark, List.nil_append, spansFrom_cons_of_none hnone] at hsame
  have hfirst : Span.covers ⟨start, start + q.whole.length⟩ start := by
    rw [covers_iff, q.length_whole, hmark, List.length_singleton]
    dsimp only
    omega
  obtain ⟨span, hspan, hcovers⟩ := hsame.symm.exists_covers List.mem_cons_self hfirst
  have := start_le_of_mem_spansFrom hspan
  rw [covers_iff] at hcovers
  omega

/-- The form for constrained passthroughs covers exactly the quotes if two of them never have a
single character between them, nor the first one an unseen one before it. -/
theorem sameColumns_plus_iff (h : IsPlusLine before quotes) :
    SameColumns (spansFrom constrained start (lineOf before quotes))
        (quotesFrom start before quotes) ↔
      (quotes ≠ [] → before ≠ [] ∨ start = 0) ∧ ∀ q ∈ quotes.dropLast, 2 ≤ q.behind.length := by
  induction quotes generalizing start before with
  | nil => simp [lineOf, quotesFrom, spansFrom_constrained h.plain.plus, SameColumns]
  | cons q quotes ih =>
    have hmark := h.mark q List.mem_cons_self
    by_cases hstart : before ≠ [] ∨ start = 0
    · have hwhole : q.whole.length = q.body.length + 2 := by
        rw [q.length_whole, hmark, List.length_singleton]
        omega
      rw [lineOf_cons_of_mark hmark, forall_dropLast_cons_iff, spansFrom_constrained_quote
        h.plain.plus hstart (h.first (List.cons_ne_nil q quotes))
        (h.body q List.mem_cons_self).plus (h.tight q List.mem_cons_self) h.endsPlus,
        quotesFrom, hwhole, sameColumns_cons_iff]
      · cases quotes with
        | nil =>
          have hbehind : '+' ∉ q.behind.tail := h.rest.plain.plus
          simp [lineOf, quotesFrom, spansFrom_constrained hbehind, SameColumns, hstart]
        | cons r quotes =>
          have hne := h.behind_ne_nil (List.cons_ne_nil r quotes)
          have htail : q.behind.tail ≠ [] ↔ 2 ≤ q.behind.length := by
            rw [← List.length_pos_iff, List.length_tail]
            omega
          rw [lineOf_tail hne, ← quotesFrom_tail hne, ih h.rest, htail]
          simp [hstart]
      · exact fun s hs => (Nat.le_succ _).trans (start_le_of_mem_spansFrom hs)
      · exact fun s hs => (Nat.le_add_right _ _).trans (start_le_of_mem_quotesFrom hs)
    · -- The character before the first mark has been taken up.
      refine iff_of_false ?_ fun h => hstart (h.1 (List.cons_ne_nil q quotes))
      rw [not_or, not_not] at hstart
      obtain ⟨rfl, hstart⟩ := hstart
      exact not_sameColumns_of_unseen hmark hstart

theorem not_twin_append {a b : Text} (ha : '+' ∉ a) (hhead : b.head? ≠ some '+')
    (hb : ¬['+', '+'] <:+: b) : ¬['+', '+'] <:+: a ++ '+' :: b := by
  induction a with
  | nil =>
    rw [List.nil_append, List.infix_cons_iff, List.cons_prefix_cons]
    rintro (⟨-, rest, rfl⟩ | h)
    · exact hhead rfl
    · exact hb h
  | cons c a ih =>
    rw [List.mem_cons, not_or] at ha
    rw [List.cons_append, List.infix_cons_iff, List.cons_prefix_cons]
    rintro (⟨hc, -⟩ | h)
    · exact ha.1 hc
    · exact ih ha.2 h

theorem Alternates.not_twin (h : Alternates before quotes) (hmark : ∀ q ∈ quotes, q.mark = ['+']) :
    ¬['+', '+'] <:+: lineOf before quotes := by
  induction quotes generalizing before with
  | nil => exact not_infix_of_not_mem h.plain.plus List.mem_cons_self
  | cons q quotes ih =>
    have hbody := (h.body q List.mem_cons_self).plus
    have hhead := h.head?_tail_ne fun t ht => ht.plus
    rw [lineOf_cons_of_mark (hmark q List.mem_cons_self)]
    refine not_twin_append h.plain.plus
      (head?_append_cons_ne hbody (h.filled q List.mem_cons_self)) ?_
    exact not_twin_append hbody hhead (ih h.tail fun x hx => hmark x (List.mem_cons_of_mem q hx))

/-- A line of constrained passthroughs is guarded exactly, every column of a passthrough and no
other, if and only if at least two characters stand between any two of them. -/
theorem plus_guarded_iff (h : IsPlusLine before quotes) :
    (∀ column, isLiteral (lineOf before quotes) column =
        (quotesFrom 0 before quotes).any (·.covers column)) ↔
      ∀ q ∈ quotes.dropLast, 2 ≤ q.behind.length := by
  have htick : '\x60' ∉ lineOf before quotes :=
    h.not_mem (fun t ht => ht.tick) fun q hq => by simp [h.mark q hq]
  have hpass : ¬"pass:".toList <:+: lineOf before quotes := by
    refine h.not_pass fun q hq => ?_
    simp [h.mark q hq]
  have htwin : ¬"++".toList <:+: lineOf before quotes := h.not_twin h.mark
  have htriple : ¬"+++".toList <:+: lineOf before quotes :=
    fun hmark => htwin (List.IsInfix.trans ⟨[], ['+'], rfl⟩ hmark)
  have hspans : spans (lineOf before quotes) =
      spansFrom constrained 0 (lineOf before quotes) := by
    simp only [spans, forms, List.flatMap_cons, List.flatMap_nil]
    rw [spansFrom_passMacro hpass, spansFrom_fenced htriple, spansFrom_fenced htwin,
      spansFrom_fenced (not_infix_of_not_mem htick List.mem_cons_self), spansFrom_code htick]
    simp
  have hexact : SameColumns (spansFrom constrained 0 (lineOf before quotes))
      (quotesFrom 0 before quotes) ↔ _ := sameColumns_plus_iff h
  rw [← hspans] at hexact
  exact hexact.trans (and_iff_right fun _ => .inr rfl)

def twoApart : List Quote := [⟨['+'], "é", ", "⟩, ⟨['+'], "b c", "."⟩]

theorem plus_guarded_twoApart : IsPlusLine [] twoApart ∧
    ∀ column, isLiteral "+é+, +b c+." column =
      (quotesFrom 0 [] twoApart).any (·.covers column) := by
  have hline : IsPlusLine [] twoApart :=
    { plain := by decide
      behind := by decide
      body := by decide
      filled := by decide
      apart := by decide
      mark := by decide
      tight := by decide
      next := by decide
      first := by decide
      inner := by decide }
  exact ⟨hline, (plus_guarded_iff hline).mpr (by decide)⟩

/-- Two passthroughs with a single blank between them: the second one is not guarded. -/
theorem plus_behind_blank_unguarded : ¬∀ (before : Text) (quotes : List Quote),
    IsPlusLine before quotes → ∀ column, isLiteral (lineOf before quotes) column =
      (quotesFrom 0 before quotes).any (·.covers column) := by
  intro h
  have hline : IsPlusLine [] [⟨['+'], "a", " "⟩, ⟨['+'], "b", []⟩] :=
    { plain := by decide
      behind := by decide
      body := by decide
      filled := by decide
      apart := by decide
      mark := by decide
      tight := by decide
      next := by decide
      first := by decide
      inner := by decide }
  have hdiffer : isLiteral (lineOf [] [⟨['+'], "a", " "⟩, ⟨['+'], "b", []⟩]) 5 ≠
      (quotesFrom 0 [] [⟨['+'], "a", " "⟩, ⟨['+'], "b", []⟩]).any (·.covers 5) := by
    decide +kernel
  exact hdiffer (h _ _ hline 5)

end Errata.Markup.Inline
