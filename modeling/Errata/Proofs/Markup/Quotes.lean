import Errata.Proofs.Markup.Inline

/-!
# Lines with several quotes

A line alternates plain text with quotes, texts between two equal marks. The forms read a line on
their own, so what one of them takes up is not kept from the others, and a form goes on where its
last match has ended. Which columns are guarded is therefore compared with the columns of the quotes
over the whole line.
-/
namespace Errata.Markup.Inline

open Text

/-- A text between two equal marks, and the plain text behind it. -/
structure Quote where
  mark : Text
  body : Text
  behind : Text

def Quote.whole (q : Quote) : Text := q.mark ++ (q.body ++ q.mark)

theorem Quote.length_whole (q : Quote) :
    q.whole.length = q.mark.length + (q.body.length + q.mark.length) := by
  rw [whole, List.length_append, List.length_append]

/-- The line that starts with a plain text and goes on with quotes. -/
def lineOf (before : Text) : List Quote → Text
  | [] => before
  | q :: quotes => before ++ (q.whole ++ lineOf q.behind quotes)

/-- Where the quotes stand, marks included, if the line starts at column `start`. -/
def quotesFrom (start : ℕ) (before : Text) : List Quote → List Span
  | [] => []
  | q :: quotes =>
    let stop := start + before.length + q.whole.length
    ⟨start + before.length, stop⟩ :: quotesFrom stop q.behind quotes

/-- Texts without marks, of which those inside quotes and those between two of them are not
empty. -/
structure Alternates (before : Text) (quotes : List Quote) : Prop where
  plain : Bare before
  behind : ∀ q ∈ quotes, Bare q.behind
  body : ∀ q ∈ quotes, Bare q.body
  filled : ∀ q ∈ quotes, q.body ≠ []
  apart : ∀ q ∈ quotes.dropLast, q.behind ≠ []

variable {before : Text} {q : Quote} {quotes : List Quote} {start : ℕ}

theorem lineOf_cons_of_mark {m : Char} (h : q.mark = [m]) : lineOf before (q :: quotes) =
    before ++ m :: (q.body ++ m :: lineOf q.behind quotes) := by
  simp [lineOf, Quote.whole, h]

theorem forall_dropLast_cons_iff {p : Quote → Prop} :
    (∀ x ∈ (q :: quotes).dropLast, p x) ↔ (quotes ≠ [] → p q) ∧ ∀ x ∈ quotes.dropLast, p x := by
  cases quotes <;> simp

theorem Alternates.tail (h : Alternates before (q :: quotes)) : Alternates q.behind quotes where
  plain := h.behind q List.mem_cons_self
  behind x hx := h.behind x (List.mem_cons_of_mem q hx)
  body x hx := h.body x (List.mem_cons_of_mem q hx)
  filled x hx := h.filled x (List.mem_cons_of_mem q hx)
  apart := (forall_dropLast_cons_iff.mp h.apart).2

theorem Alternates.behind_ne_nil (h : Alternates before (q :: quotes)) (hne : quotes ≠ []) :
    q.behind ≠ [] :=
  (forall_dropLast_cons_iff.mp h.apart).1 hne

theorem Alternates.head?_tail (h : Alternates before (q :: quotes)) :
    (lineOf q.behind quotes).head? = q.behind.head? := by
  cases quotes with
  | nil => rfl
  | cons r quotes =>
    exact List.head?_append_of_ne_nil _ (h.behind_ne_nil (List.cons_ne_nil r quotes))

theorem Alternates.head?_tail_ne {c : Char} (h : Alternates before (q :: quotes))
    (hc : ∀ t, Bare t → c ∉ t) : (lineOf q.behind quotes).head? ≠ some c := by
  rw [h.head?_tail]
  exact fun hhead => hc q.behind h.tail.plain (List.mem_of_mem_head? hhead)

theorem mem_lineOf {c : Char} (h : c ∈ lineOf before quotes) :
    c ∈ before ∨ ∃ q ∈ quotes, c ∈ q.mark ∨ c ∈ q.body ∨ c ∈ q.behind := by
  induction quotes generalizing before with
  | nil => exact .inl h
  | cons q quotes ih =>
    simp only [lineOf, Quote.whole, List.mem_append] at h
    have hrest := @ih q.behind
    grind

theorem Alternates.not_mem {c : Char} (h : Alternates before quotes)
    (hc : ∀ t, Bare t → c ∉ t) (hmark : ∀ q ∈ quotes, c ∉ q.mark) : c ∉ lineOf before quotes := by
  intro hmem
  rcases mem_lineOf hmem with hmem | ⟨q, hq, hmem | hmem | hmem⟩
  · exact hc before h.plain hmem
  · exact hmark q hq hmem
  · exact hc q.body (h.body q hq) hmem
  · exact hc q.behind (h.behind q hq) hmem

/-- A text without a character of the mark does not reach over the mark. -/
theorem not_infix_append {needle mark a b : Text} (hmark : mark ≠ []) (hc : ∀ c ∈ mark, c ∉ needle)
    (ha : ¬needle <:+: a) (hb : ¬needle <:+: b) : ¬needle <:+: a ++ (mark ++ b) := by
  rw [List.infix_append_iff, List.infix_append_iff]
  rintro (h | (h | h | ⟨l₁, l₂, rfl, h₁, h₂⟩) | ⟨l₁, l₂, rfl, h₁, h₂⟩)
  · exact ha h
  · cases needle with
    | nil => exact ha (List.nil_infix)
    | cons c needle => exact hc c (h.subset List.mem_cons_self) List.mem_cons_self
  · exact hb h
  · cases l₁ with
    | nil => exact hb h₂.isInfix
    | cons c l₁ => exact hc c (h₁.subset List.mem_cons_self) (by simp)
  · cases l₂ with
    | nil => exact ha (by simpa using h₁.isInfix)
    | cons c l₂ =>
      obtain ⟨d, mark, rfl⟩ := List.exists_cons_of_ne_nil hmark
      obtain rfl : c = d := (List.cons_prefix_cons.mp h₂).1
      exact hc c List.mem_cons_self (by simp)

theorem Alternates.not_pass (h : Alternates before quotes)
    (hmark : ∀ q ∈ quotes, q.mark ≠ [] ∧ ∀ c ∈ q.mark, c ∉ "pass:".toList) :
    ¬"pass:".toList <:+: lineOf before quotes := by
  induction quotes generalizing before with
  | nil => exact h.plain.pass
  | cons q quotes ih =>
    obtain ⟨hne, hq⟩ := hmark q List.mem_cons_self
    have hrest := ih h.tail fun x hx => hmark x (List.mem_cons_of_mem q hx)
    have hbody := (h.body q List.mem_cons_self).pass
    rw [lineOf, Quote.whole, List.append_assoc, List.append_assoc]
    exact not_infix_append hne hq h.plain.pass (not_infix_append hne hq hbody hrest)

theorem head?_append_cons_ne {c d : Char} {body rest : Text} (h : c ∉ body) (hne : body ≠ []) :
    (body ++ d :: rest).head? ≠ some c := by
  rw [List.head?_append_of_ne_nil _ hne]
  exact fun hhead => h (List.mem_of_mem_head? hhead)

/-- The spans cover the same columns. -/
def SameColumns (a b : List Span) : Prop :=
  ∀ column, a.any (·.covers column) = b.any (·.covers column)

theorem covers_iff {span : Span} {column : ℕ} :
    span.covers column = true ↔ span.start ≤ column ∧ column < span.stop := by
  simp [Span.covers]

theorem any_covers_eq_false {spans : List Span} {column : ℕ}
    (h : ∀ span ∈ spans, column < span.start) : spans.any (·.covers column) = false := by
  rw [List.any_eq_false]
  intro span hspan
  have := h span hspan
  rw [covers_iff]
  omega

theorem SameColumns.exists_covers {a b : List Span} (h : SameColumns a b) {span : Span} {column : ℕ}
    (hspan : span ∈ a) (hcovers : span.covers column) : ∃ s ∈ b, s.covers column := by
  have hany : a.any (·.covers column) = true := List.any_eq_true.mpr ⟨span, hspan, hcovers⟩
  rw [h column] at hany
  exact List.any_eq_true.mp hany

theorem SameColumns.symm {a b : List Span} (h : SameColumns a b) : SameColumns b a :=
  fun column => (h column).symm

/-- A first span that ends before all others start does not matter. -/
theorem sameColumns_cons_iff {span : Span} {a b : List Span} (ha : ∀ s ∈ a, span.stop ≤ s.start)
    (hb : ∀ s ∈ b, span.stop ≤ s.start) :
    SameColumns (span :: a) (span :: b) ↔ SameColumns a b := by
  constructor
  · intro h column
    by_cases hcolumn : column < span.stop
    · rw [any_covers_eq_false fun s hs => hcolumn.trans_le (ha s hs),
        any_covers_eq_false fun s hs => hcolumn.trans_le (hb s hs)]
    · have hout : span.covers column = false := by
        rw [Bool.eq_false_iff, ne_eq, covers_iff]
        omega
      simpa [hout] using h column
  · intro h column
    rw [List.any_cons, List.any_cons, h column]

theorem start_le_of_mem_quotesFrom {span : Span} (h : span ∈ quotesFrom start before quotes) :
    start + before.length ≤ span.start := by
  induction quotes generalizing start before with
  | nil => cases h
  | cons q quotes ih =>
    rcases List.mem_cons.mp h with rfl | h
    · exact le_rfl
    · have := ih h
      omega

end Errata.Markup.Inline
