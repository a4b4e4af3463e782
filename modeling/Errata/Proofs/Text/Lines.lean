import Errata.Text.Lines
import Mathlib.Data.List.Basic
import Mathlib.Data.List.Forall2

/-!
# How lines end

Every line of a text but the last one has a terminator, and the last one has none exactly if the
text does not end in a newline. A text whose lines all end alike is therefore known by its lines,
the common terminator and whether the last line has it too; `typeset` puts such a text together.
-/
namespace Errata

/-- The characters of a line, those of its terminator included. -/
def Line.chars (l : Line) : Text := l.text ++ l.ending.chars

namespace Text

/-- Lines with one terminator for all; the last one has it only if `closed`. -/
def typeset (e : Ending) (closed : Bool) : List Text → List Line
  | [] => []
  | [t] => [⟨t, if closed then e else .unterminated⟩]
  | t :: u :: ts => ⟨t, e⟩ :: typeset e closed (u :: ts)

/-- All terminators of the text are `e`. -/
def EndsAlike (e : Ending) (t : Text) : Prop :=
  ∀ l ∈ cut t, l.ending = .unterminated ∨ l.ending = e

instance (e : Ending) (t : Text) : Decidable (EndsAlike e t) :=
  inferInstanceAs (Decidable (∀ l ∈ cut t, _))

theorem typeset_cons (e : Ending) (closed : Bool) (t : Text) {ts : List Text} (h : ts ≠ []) :
    typeset e closed (t :: ts) = ⟨t, e⟩ :: typeset e closed ts := by
  cases ts with
  | nil => exact absurd rfl h
  | cons u ts => rfl

theorem typeset_append (e : Ending) (closed : Bool) (ts : List Text) {us : List Text}
    (h : us ≠ []) : typeset e closed (ts ++ us) = ts.map (⟨·, e⟩) ++ typeset e closed us := by
  induction ts with
  | nil => rfl
  | cons t ts ih =>
    rw [List.cons_append, typeset_cons e closed t (by simp [h]), ih]
    rfl

theorem typeset_concat (e : Ending) (closed : Bool) (ts : List Text) (t : Text) :
    typeset e closed (ts ++ [t]) =
      ts.map (⟨·, e⟩) ++ [⟨t, if closed then e else .unterminated⟩] :=
  typeset_append e closed ts (by simp)

theorem cut_eq_nil_iff {t : Text} : cut t = [] ↔ t = [] := by
  constructor
  · intro h
    rw [← join_cut t, h]
    rfl
  · rintro rfl
    rfl

theorem endsInNewline_cons (c : Char) {t : Text} (h : t ≠ []) :
    endsInNewline (c :: t) = endsInNewline t := by
  obtain ⟨d, t, rfl⟩ := List.exists_cons_of_ne_nil h
  rw [endsInNewline, List.getLast?_cons_cons]
  rfl

/-- Every line but the last one is terminated, and that one is exactly if `closed`. -/
def IsCut (closed : Bool) : List Line → Prop
  | [] => True
  | [l] => l.ending = .unterminated ↔ closed = false
  | l :: l' :: ls => l.ending ≠ .unterminated ∧ IsCut closed (l' :: ls)

theorem IsCut.cons {l : Line} {r : Text} (hl : l.ending ≠ .unterminated)
    (h : IsCut (endsInNewline r) (cut r)) :
    IsCut (r.isEmpty || endsInNewline r) (l :: cut r) := by
  cases hr : cut r with
  | nil =>
    obtain rfl := cut_eq_nil_iff.mp hr
    simpa [IsCut] using hl
  | cons l' ls =>
    have hne : r ≠ [] := mt cut_eq_nil_iff.mpr (by simp [hr])
    rw [hr] at h
    have hempty : r.isEmpty = false := by simpa using hne
    rw [hempty, Bool.false_or]
    exact ⟨hl, h⟩

theorem IsCut.getLast {closed : Bool} {ls : List Line} {i : ℕ} {l : Line} (h : IsCut closed ls)
    (hl : ls[i]? = some l) (hi : i + 1 = ls.length) :
    l.ending = .unterminated ↔ closed = false := by
  induction ls generalizing i with
  | nil => cases hl
  | cons l' ls ih =>
    cases ls with
    | nil =>
      obtain rfl : i = 0 := by simpa using hi
      obtain rfl := Option.some.inj hl
      exact h
    | cons l'' ls =>
      obtain ⟨i, rfl⟩ : ∃ k, i = k + 1 := ⟨ls.length, by simpa using hi⟩
      exact ih h.2 (by simpa using hl) (by simpa using hi)

theorem isCut_cut (t : Text) : IsCut (endsInNewline t) (cut t) := by
  have hnewline : ∀ r : Text, endsInNewline ('\n' :: r) = (r.isEmpty || endsInNewline r) := by
    intro r
    cases r <;> simp [endsInNewline]
  fun_induction cut t with
  | case1 => trivial
  | case2 r ih =>
    rw [hnewline]
    exact ih.cons (by simp)
  | case3 r ih =>
    rw [endsInNewline_cons _ (by simp), hnewline]
    exact ih.cons (by simp)
  | case4 c r h₁ h₂ hr ih =>
    obtain rfl := cut_eq_nil_iff.mp hr
    simpa [IsCut, endsInNewline] using h₁
  | case5 c r h₁ h₂ l ls hr ih =>
    rw [endsInNewline_cons _ fun hnil => by simp [hnil, cut] at hr]
    rw [hr] at ih
    cases ls <;> exact ih

theorem IsCut.eq_typeset {e : Ending} {closed : Bool} {ls : List Line} (h : IsCut closed ls)
    (hends : ∀ l ∈ ls, l.ending = .unterminated ∨ l.ending = e) :
    ls = typeset e closed (ls.map (·.text)) := by
  induction ls with
  | nil => rfl
  | cons l ls ih =>
    obtain ⟨hl, hls⟩ := List.forall_mem_cons.mp hends
    cases ls with
    | nil =>
      have hending : l.ending = if closed then e else .unterminated := by
        cases closed with
        | true => exact hl.resolve_left (by simpa [IsCut] using h)
        | false => exact h.mpr rfl
      rw [List.map_singleton, typeset, ← hending]
    | cons l' ls =>
      obtain ⟨hne, hrest⟩ := h
      rw [List.map_cons, typeset_cons _ _ _ (by simp), ← ih hrest hls, ← hl.resolve_left hne]

/-- The terminator of a line that is joined with `e`; a line without one gets none. -/
def recast (e : Ending) : Ending → Ending
  | .unterminated => .unterminated
  | .lf | .crlf => e

theorem typeset_map {α : Type*} {closed : Bool} {xs : List α} (e : Ending) (line : α → Line)
    (text : α → Text) (h : IsCut closed (xs.map line)) :
    typeset e closed (xs.map text) = xs.map fun x => ⟨text x, recast e (line x).ending⟩ := by
  induction xs with
  | nil => rfl
  | cons x xs ih =>
    cases xs with
    | nil =>
      have hx : (line x).ending = .unterminated ↔ closed = false := h
      cases hline : (line x).ending <;> cases closed <;> simp_all [typeset, recast]
    | cons y ys =>
      obtain ⟨hne, hrest⟩ := h
      have hx : recast e (line x).ending = e := by
        cases hline : (line x).ending <;> simp_all [recast]
      rw [List.map_cons, typeset_cons _ _ _ (by simp), ih hrest]
      simp only [List.map_cons, hx]

theorem map_text_typeset (e : Ending) (closed : Bool) (ts : List Text) :
    (typeset e closed ts).map (·.text) = ts := by
  induction ts with
  | nil => rfl
  | cons t ts ih =>
    cases ts with
    | nil => rfl
    | cons u us => rw [typeset_cons e closed t (by simp), List.map_cons, ih]

theorem isCut_typeset {e : Ending} (he : e ≠ .unterminated) (closed : Bool) (ts : List Text) :
    IsCut closed (typeset e closed ts) := by
  induction ts with
  | nil => trivial
  | cons t ts ih =>
    cases ts with
    | nil => cases closed <;> simp [typeset, IsCut, he]
    | cons u us =>
      rw [typeset_cons e closed t (by simp)]
      cases us <;> exact ⟨he, ih⟩

/-- Each `\n` without a `\r` grows by one character when the lines are typeset with `\r\n`. -/
theorem IsCut.length_typeset {closed : Bool} {ls : List Line} (h : IsCut closed ls) :
    ((typeset .crlf closed (ls.map (·.text))).flatMap Line.chars).length =
      (ls.flatMap Line.chars).length + ls.countP (·.ending = .lf) := by
  induction ls with
  | nil => rfl
  | cons l ls ih =>
    cases ls with
    | nil =>
      simp only [IsCut] at h
      cases closed <;> cases hl : l.ending <;> simp_all [typeset, Line.chars, Ending.chars]
    | cons l' ls =>
      obtain ⟨hne, hrest⟩ := h
      have hl : (Line.chars ⟨l.text, .crlf⟩).length =
          l.chars.length + if l.ending = .lf then 1 else 0 := by
        cases hending : l.ending <;> simp_all [Line.chars, Ending.chars]
      have ih := ih hrest
      rw [List.map_cons, typeset_cons _ _ _ (by simp)]
      simp only [List.flatMap_cons, List.length_append, List.countP_cons, decide_eq_true_eq]
        at ih ⊢
      omega

theorem contains_cons (needle : Text) (c : Char) (r : Text) :
    contains needle (c :: r) = (needle.isPrefixOf (c :: r) || contains needle r) := by
  rw [contains, find?]
  split <;> simp_all [contains]

theorem hasCrlf_iff {t : Text} : hasCrlf t ↔ ∃ l ∈ cut t, l.ending = .crlf := by
  unfold hasCrlf
  fun_induction cut t with
  | case1 => simp [contains, find?]
  | case2 r ih => simp [contains_cons, ih]
  | case3 r ih => simp [contains_cons, List.isPrefixOf]
  | case4 c r h₁ h₂ hr ih =>
    obtain rfl := cut_eq_nil_iff.mp hr
    simp [contains, find?, List.isPrefixOf]
  | case5 c r h₁ h₂ l ls hr ih =>
    have hnot : List.isPrefixOf ['\r', '\n'] (c :: r) = false := by
      cases r with
      | nil => simp [List.isPrefixOf]
      | cons d r =>
        have hnewline : c = '\r' → d ≠ '\n' := by
          rintro hc rfl
          exact h₂ r hc rfl
        simp only [List.isPrefixOf, Bool.and_eq_false_iff]
        grind
    rw [contains_cons, hnot, Bool.false_or, ih, hr]
    simp

theorem not_mem_of_mem_splitOn {c : Char} {t piece : Text} (h : piece ∈ t.splitOn c) :
    c ∉ piece := by
  induction t generalizing piece with
  | nil =>
    obtain rfl : piece = [] := by simpa [List.splitOn_nil] using h
    simp
  | cons x t ih =>
    rw [List.splitOn_cons_eq_if_modifyHead] at h
    split at h
    · rcases List.mem_cons.mp h with rfl | h
      · simp
      · exact ih h
    · next hx =>
      cases hs : t.splitOn c with
      | nil => exact absurd hs (List.splitOn_ne_nil c t)
      | cons first rest =>
        rw [hs, List.modifyHead_cons] at h
        rcases List.mem_cons.mp h with rfl | h
        · have hfirst : c ∉ first := ih (by simp [hs])
          have hne : c ≠ x := by
            rintro rfl
            simp at hx
          simp [hne, hfirst]
        · exact ih (by simp [hs, h])

theorem cut_cons {c : Char} {r : Text} (hc : c ≠ '\n') (hcr : c = '\r' → r.head? ≠ some '\n') :
    cut (c :: r) =
      match cut r with
      | [] => [⟨[c], .unterminated⟩]
      | l :: ls => ⟨c :: l.text, l.ending⟩ :: ls := by
  refine cut.eq_4 c r (fun h => hc h) ?_
  rintro r' h rfl
  exact hcr h rfl

/-- A text up to its first newline is its first line; a carriage return before the newline belongs
to the terminator. -/
theorem cut_append_newline {t : Text} (ht : '\n' ∉ t) (r : Text) :
    cut (t ++ '\n' :: r) =
      (if t.getLast? = some '\r' then ⟨t.dropLast, .crlf⟩ else ⟨t, .lf⟩) :: cut r := by
  induction t with
  | nil => rfl
  | cons c t ih =>
    simp only [List.mem_cons, not_or] at ht
    obtain ⟨hc, ht⟩ := ht
    cases t with
    | nil =>
      by_cases hcr : c = '\r'
      · subst hcr
        rfl
      · rw [List.singleton_append, cut_cons (Ne.symm hc) (fun h => absurd h hcr)]
        simp [cut, hcr]
    | cons d t =>
      have hd : d ≠ '\n' := by
        rintro rfl
        exact ht List.mem_cons_self
      rw [List.cons_append, cut_cons (Ne.symm hc) (by simpa using fun _ => hd), ih ht,
        List.getLast?_cons_cons]
      by_cases hlast : (d :: t).getLast? = some '\r' <;> simp [hlast]

theorem cut_of_no_newline {t : Text} (ht : '\n' ∉ t) (hne : t ≠ []) :
    cut t = [⟨t, .unterminated⟩] := by
  induction t with
  | nil => exact absurd rfl hne
  | cons c t ih =>
    simp only [List.mem_cons, not_or] at ht
    obtain ⟨hc, ht⟩ := ht
    have hhead : t.head? ≠ some '\n' := fun h => ht (List.mem_of_mem_head? h)
    rw [cut_cons (Ne.symm hc) fun _ => hhead]
    cases t with
    | nil => rfl
    | cons d t => rw [ih ht (by simp)]

theorem newline_not_mem_of_mem_cut {t : Text} {l : Line} (h : l ∈ cut t) : '\n' ∉ l.text := by
  fun_induction cut t generalizing l with
  | case1 => simp at h
  | case2 r ih =>
    rcases List.mem_cons.mp h with rfl | h
    · simp
    · exact ih h
  | case3 r ih =>
    rcases List.mem_cons.mp h with rfl | h
    · simp
    · exact ih h
  | case4 c r hc _ _ _ =>
    obtain rfl := List.mem_singleton.mp h
    simpa using fun h => hc h.symm
  | case5 c r hc _ first rest hr ih =>
    rw [hr] at ih
    rcases List.mem_cons.mp h with rfl | h
    · have hfirst := ih List.mem_cons_self
      simpa [hfirst] using fun h => hc h.symm
    · exact ih (List.mem_cons_of_mem _ h)

theorem text_ne_nil_of_mem_cut {t : Text} {l : Line} (h : l ∈ cut t)
    (hl : l.ending = .unterminated) : l.text ≠ [] := by
  fun_induction cut t generalizing l with
  | case1 => simp at h
  | case2 r ih =>
    rcases List.mem_cons.mp h with rfl | h
    · cases hl
    · exact ih h hl
  | case3 r ih =>
    rcases List.mem_cons.mp h with rfl | h
    · cases hl
    · exact ih h hl
  | case4 c r => simp [List.mem_singleton.mp h]
  | case5 c r _ _ first rest hr ih =>
    rw [hr] at ih
    rcases List.mem_cons.mp h with rfl | h
    · simp
    · exact ih (List.mem_cons_of_mem _ h) hl

theorem trim_concat_blank {c : Char} (hc : isBlank c) (t : Text) : trim (t ++ [c]) = trim t := by
  unfold trim trimEnd trimStart dropEndWhile
  rw [List.dropWhile_append]
  split
  · next h =>
    rw [List.isEmpty_iff] at h
    simp [h, hc]
  · simp [hc]

/-- The line that is read again where a line was written: the same one, or without a carriage return
at its end, which then belongs to the terminator. -/
def Rereads (written line : Text) : Prop := written = line ∨ written = line ++ ['\r']

theorem Rereads.trim_eq {t line : Text} (h : Rereads t line) : trim line = trim t := by
  rcases h with rfl | rfl
  · rfl
  · exact (trim_concat_blank (by decide) line).symm

theorem Rereads.eq {t line : Text} (h : Rereads t line) (ht : t.getLast? ≠ some '\r') :
    line = t := by
  rcases h with rfl | rfl
  · rfl
  · simp at ht

theorem lines_append_terminator {e : Ending} (he : e ≠ .unterminated) {t : Text} (ht : '\n' ∉ t)
    (r : Text) : ∃ line, lines (t ++ e.chars ++ r) = line :: lines r ∧ Rereads t line := by
  cases e with
  | lf =>
    rw [Ending.chars, List.append_assoc, List.singleton_append, lines, cut_append_newline ht]
    split
    · next h =>
      obtain ⟨t, rfl⟩ := List.getLast?_eq_some_iff.mp h
      exact ⟨t, by simp [lines], .inr rfl⟩
    · exact ⟨t, rfl, .inl rfl⟩
  | crlf =>
    have hcr : '\n' ∉ t ++ ['\r'] := by simpa using ht
    have hsplit : t ++ Ending.crlf.chars ++ r = (t ++ ['\r']) ++ '\n' :: r := by
      simp [Ending.chars]
    rw [hsplit, lines, cut_append_newline hcr]
    exact ⟨t, by simp [lines], .inl rfl⟩
  | unterminated => exact absurd rfl he

/-- Lines that are typeset are read again in their order. The last one must not get lost for being
empty. -/
theorem rereads_lines_typeset {e : Ending} (he : e ≠ .unterminated) {closed : Bool}
    {ts : List Text} (hts : ∀ t ∈ ts, '\n' ∉ t) (hlast : closed ∨ ts.getLast? ≠ some []) :
    List.Forall₂ Rereads ts (lines ((typeset e closed ts).flatMap Line.chars)) := by
  induction ts with
  | nil => exact .nil
  | cons t ts ih =>
    obtain ⟨ht, hts⟩ := List.forall_mem_cons.mp hts
    by_cases hnil : ts = []
    · subst hnil
      cases closed with
      | true =>
        obtain ⟨line, hlines, hline⟩ := lines_append_terminator he ht []
        have hone : lines (t ++ e.chars) = [line] := by simpa [lines, cut] using hlines
        simpa [typeset, Line.chars, hone] using hline
      | false =>
        have hne : t ≠ [] := by simpa using hlast
        have hone : lines t = [t] := by simp [lines, cut_of_no_newline ht hne]
        have hline : Rereads t t := .inl rfl
        simpa [typeset, Line.chars, Ending.chars, hone] using hline
    · obtain ⟨line, hlines, hline⟩ := lines_append_terminator he ht
        ((typeset e closed ts).flatMap Line.chars)
      rw [typeset_cons e closed t hnil, List.flatMap_cons, Line.chars, hlines]
      refine .cons hline (ih hts ?_)
      obtain ⟨u, us, rfl⟩ := List.exists_cons_of_ne_nil hnil
      rwa [List.getLast?_cons_cons] at hlast

theorem trim_eq_of_rereads {ts ls : List Text} (h : List.Forall₂ Rereads ts ls) :
    ls.map trim = ts.map trim := by
  induction h with
  | nil => rfl
  | cons h _ ih => rw [List.map_cons, List.map_cons, h.trim_eq, ih]

theorem getElem?_of_rereads {ts ls : List Text} (h : List.Forall₂ Rereads ts ls) {i : ℕ} {t : Text}
    (ht : ts[i]? = some t) : ∃ line, ls[i]? = some line ∧ Rereads t line := by
  induction h generalizing i with
  | nil => cases ht
  | @cons t' line ts ls hline _ ih =>
    cases i with
    | zero =>
      obtain rfl := Option.some.inj ht
      exact ⟨line, rfl, hline⟩
    | succ i => exact ih ht

theorem getLast?_lines_ne_nil {t : Text} (h : endsInNewline t = false) :
    (lines t).getLast? ≠ some [] := by
  intro hlast
  rw [List.getLast?_eq_getElem?, lines, List.length_map, List.getElem?_map] at hlast
  obtain ⟨l, hl, hnil⟩ := Option.map_eq_some_iff.mp hlast
  have hlength : 0 < (cut t).length := by
    have := (List.getElem?_eq_some_iff.mp hl).1
    omega
  have hopen := ((isCut_cut t).getLast hl (by omega)).mpr h
  exact text_ne_nil_of_mem_cut (List.mem_of_getElem? hl) hopen hnil

/-- Every carriage return stands right before a newline. -/
def ReturnsEndLines (t : Text) : Prop :=
  ∀ i < t.length, t[i]? = some '\r' → t[i + 1]? = some '\n'

instance (t : Text) : Decidable (ReturnsEndLines t) :=
  inferInstanceAs (Decidable (∀ i < t.length, _))

theorem ReturnsEndLines.tail {c : Char} {t : Text} (h : ReturnsEndLines (c :: t)) :
    ReturnsEndLines t := by
  intro i hi hr
  simpa using h (i + 1) (by simpa using hi) (by simpa using hr)

theorem return_not_mem_of_mem_cut {t : Text} (h : ReturnsEndLines t) {l : Line} (hl : l ∈ cut t) :
    '\r' ∉ l.text := by
  fun_induction cut t generalizing l with
  | case1 => simp at hl
  | case2 r ih =>
    rcases List.mem_cons.mp hl with rfl | hl
    · simp
    · exact ih h.tail hl
  | case3 r ih =>
    rcases List.mem_cons.mp hl with rfl | hl
    · simp
    · exact ih h.tail.tail hl
  | case4 c r hc hcr hr ih =>
    have hne : c ≠ '\r' := by
      rintro rfl
      obtain rfl := cut_eq_nil_iff.mp hr
      simpa using h 0 (by simp) rfl
    obtain rfl := List.mem_singleton.mp hl
    simpa using Ne.symm hne
  | case5 c r hc hcr first rest hr ih =>
    have hne : c ≠ '\r' := by
      rintro rfl
      have hnext : r.head? = some '\n' := by simpa [List.head?_eq_getElem?] using h 0 (by simp) rfl
      obtain ⟨r', rfl⟩ := List.head?_eq_some_iff.mp hnext
      exact hcr r' rfl rfl
    have hrest : ∀ l ∈ first :: rest, '\r' ∉ l.text := fun l hl => ih h.tail (hr ▸ hl)
    rcases List.mem_cons.mp hl with rfl | hl
    · simpa [hne.symm] using hrest first List.mem_cons_self
    · exact hrest l (List.mem_cons_of_mem _ hl)

/-- A line as cutting leaves it: what stands before a lone newline ends in no carriage return, and
what has no terminator is not empty. -/
structure IsProper (l : Line) : Prop where
  newline : '\n' ∉ l.text
  lf : l.ending = .lf → l.text.getLast? ≠ some '\r'
  unterminated : l.ending = .unterminated → l.text ≠ []

theorem cut_append_line {l : Line} (hl : IsProper l) (hending : l.ending ≠ .unterminated)
    (r : Text) : cut (l.chars ++ r) = l :: cut r := by
  obtain ⟨t, e⟩ := l
  cases e with
  | lf =>
    rw [Line.chars, Ending.chars, List.append_assoc, List.singleton_append,
      cut_append_newline hl.newline, if_neg (hl.lf rfl)]
  | crlf =>
    have hsplit : Line.chars ⟨t, .crlf⟩ ++ r = (t ++ ['\r']) ++ '\n' :: r := by
      simp [Line.chars, Ending.chars]
    rw [hsplit, cut_append_newline (by simpa using hl.newline), if_pos (by simp),
      List.dropLast_concat]
  | unterminated => exact absurd rfl hending

theorem cut_flatMap_chars {closed : Bool} {ls : List Line} (hcut : IsCut closed ls)
    (hls : ∀ l ∈ ls, IsProper l) : cut (ls.flatMap Line.chars) = ls := by
  induction ls with
  | nil => rfl
  | cons l ls ih =>
    obtain ⟨hl, hls⟩ := List.forall_mem_cons.mp hls
    by_cases hending : l.ending = .unterminated
    · cases ls with
      | cons l' ls => exact absurd hending hcut.1
      | nil =>
        obtain ⟨t, e⟩ := l
        subst hending
        simpa [Line.chars, Ending.chars] using cut_of_no_newline hl.newline (hl.unterminated rfl)
    · rw [List.flatMap_cons, cut_append_line hl hending]
      cases ls with
      | nil => rfl
      | cons l' ls => rw [ih hcut.2 hls]

theorem isProper_of_mem_cut {t : Text} {l : Line} (h : l ∈ cut t) : IsProper l where
  newline := newline_not_mem_of_mem_cut h
  unterminated := text_ne_nil_of_mem_cut h
  lf hlf := by
    fun_induction cut t generalizing l with
    | case1 => cases h
    | case2 r ih =>
      rcases List.mem_cons.mp h with rfl | h
      · simp
      · exact ih h hlf
    | case3 r ih =>
      rcases List.mem_cons.mp h with rfl | h
      · simp
      · exact ih h hlf
    | case4 c r =>
      obtain rfl := List.mem_singleton.mp h
      cases hlf
    | case5 c r hc hcr first rest hr ih =>
      rw [hr] at ih
      rcases List.mem_cons.mp h with rfl | h
      · -- Only an empty first line would leave the character in front as the last one.
        cases htext : first.text with
        | cons d text =>
          have hfirst := ih List.mem_cons_self hlf
          rw [htext] at hfirst
          rwa [List.getLast?_cons_cons]
        | nil =>
          have hr' := join_cut r
          rw [hr, List.flatMap_cons, htext, hlf, List.nil_append, Ending.chars,
            List.singleton_append] at hr'
          simpa using fun hreturn => hcr _ hreturn hr'.symm
      · exact ih (List.mem_cons_of_mem _ h) hlf

/-- The text of one line, which no terminator can change. -/
def IsTidy (t : Text) : Prop := '\n' ∉ t ∧ t.getLast? ≠ some '\r'

theorem IsTidy.isProper {t : Text} (h : IsTidy t) {e : Ending} (he : e ≠ .unterminated) :
    IsProper ⟨t, e⟩ :=
  ⟨h.1, fun _ => h.2, fun hopen => absurd hopen he⟩

/-- Tidy lines are cut again as they were typeset. The last one must not get lost for being
empty. -/
theorem cut_typeset {e : Ending} (he : e ≠ .unterminated) {closed : Bool} {ts : List Text}
    (hts : ∀ t ∈ ts, IsTidy t) (hlast : closed = false → ts.getLast? ≠ some []) :
    cut ((typeset e closed ts).flatMap Line.chars) = typeset e closed ts := by
  induction ts with
  | nil => rfl
  | cons t ts ih =>
    obtain ⟨ht, hts⟩ := List.forall_mem_cons.mp hts
    by_cases hnil : ts = []
    · subst hnil
      cases closed with
      | true =>
        have hcut := cut_append_line (ht.isProper he) he []
        simpa [typeset, Line.chars, cut] using hcut
      | false =>
        have hne : t ≠ [] := by simpa using hlast rfl
        simpa [typeset, Line.chars, Ending.chars] using cut_of_no_newline ht.1 hne
    · obtain ⟨u, us, rfl⟩ := List.exists_cons_of_ne_nil hnil
      rw [List.getLast?_cons_cons] at hlast
      rw [typeset_cons e closed t hnil, List.flatMap_cons, cut_append_line (ht.isProper he) he,
        ih hts hlast]

theorem ending_of_mem_typeset {e : Ending} {closed : Bool} {ts : List Text} {l : Line}
    (h : l ∈ typeset e closed ts) : l.ending = .unterminated ∨ l.ending = e := by
  induction ts with
  | nil => cases h
  | cons t ts ih =>
    cases ts with
    | nil =>
      obtain rfl := List.mem_singleton.mp h
      cases closed with
      | true => exact .inr rfl
      | false => exact .inl rfl
    | cons u us =>
      rcases List.mem_cons.mp h with rfl | h
      · exact .inr rfl
      · exact ih h

theorem endsInNewline_of_cut_eq_typeset {e : Ending} (he : e ≠ .unterminated) {closed : Bool}
    {t : Text} {ts : List Text} (hts : ts ≠ []) (h : cut t = typeset e closed ts) :
    endsInNewline t = closed := by
  obtain ⟨init, last, rfl⟩ := (List.eq_nil_or_concat' ts).resolve_left hts
  have hlast : (cut t)[init.length]? = some ⟨last, if closed then e else .unterminated⟩ := by
    simp [h, typeset_concat]
  have hlength : init.length + 1 = (cut t).length := by simp [h, typeset_concat]
  have hopen := (isCut_cut t).getLast hlast hlength
  cases closed with
  | true => simpa [he] using hopen
  | false => simpa using hopen

end Text

end Errata
