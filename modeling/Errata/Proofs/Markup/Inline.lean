import Errata.Markup.Inline
import Mathlib.Data.List.Infix
import Mathlib.Data.List.TakeWhile

/-!
# What the inline forms match

For each form, the text that it matches is written out as its mark, what stands between the marks
and what follows. Two things can be read off from that: a literal lies within its line, and a form
has no literal in a text in which its mark does not stand. A text without any mark has no literal.
-/
namespace Errata.Markup.Inline

open Text

variable {form : Form} {start : ℕ} {s t : Text} {atStart : Bool} {hit : Hit}

theorem spansFrom_nil : spansFrom form start [] = [] := by
  rw [spansFrom]

theorem spansFrom_cons_of_none {c : Char} (h : form (start == 0) (c :: s) = none) :
    spansFrom form start (c :: s) = spansFrom form (start + 1) s := by
  rw [spansFrom, h]

theorem spansFrom_of_some (hs : s ≠ []) (h : form (start == 0) s = some hit) :
    spansFrom form start s = ⟨start + hit.span.start, start + hit.span.stop⟩ ::
      spansFrom form (start + hit.length) (s.drop hit.length) := by
  cases s with
  | nil => exact absurd rfl hs
  | cons c s => rw [spansFrom, h]

theorem spansFrom_append (h : ∀ v, v <:+ t → v ≠ [] → ∀ atStart, form atStart (v ++ s) = none) :
    spansFrom form start (t ++ s) = spansFrom form (start + t.length) s := by
  induction t generalizing start with
  | nil => rfl
  | cons c t ih =>
    have hhere := h (c :: t) List.suffix_rfl (List.cons_ne_nil c t)
    rw [List.cons_append] at hhere ⊢
    rw [spansFrom_cons_of_none (hhere _),
      ih fun v hv => h v (hv.trans (List.suffix_cons c t)), List.length_cons]
    congr 1
    omega

theorem spansFrom_append_of_not_mem {m : Char}
    (hform : ∀ atStart s hit, form atStart s = some hit → s.head? = some m) (h : m ∉ t) :
    spansFrom form start (t ++ s) = spansFrom form (start + t.length) s := by
  refine spansFrom_append fun v hv hne atStart => ?_
  cases hhit : form atStart (v ++ s) with
  | none => rfl
  | some hit =>
    have hhead := hform _ _ _ hhit
    rw [List.head?_append_of_ne_nil _ hne] at hhead
    exact absurd (hv.subset (List.mem_of_mem_head? hhead)) h

theorem start_le_of_mem_spansFrom {span : Span} (h : span ∈ spansFrom form start s) :
    start ≤ span.start := by
  fun_induction spansFrom form start s with
  | case1 => simp at h
  | case2 start c r hit _ ih =>
    rcases List.mem_cons.mp h with rfl | h
    · exact Nat.le_add_right _ _
    · have := ih h
      omega
  | case3 start c r _ ih =>
    have := ih h
    omega

/-- The match lies within the text, and its literal within the match. -/
def Hit.Fits (hit : Hit) (s : Text) : Prop := hit.span.stop ≤ hit.length ∧ hit.length ≤ s.length

theorem stop_le_of_mem_spansFrom {span : Span}
    (hform : ∀ atStart s hit, form atStart s = some hit → hit.Fits s)
    (h : span ∈ spansFrom form start s) : span.stop ≤ start + s.length := by
  fun_induction spansFrom form start s with
  | case1 => simp at h
  | case2 start c r hit hhit ih =>
    obtain ⟨hstop, hlength⟩ := hform _ _ _ hhit
    rcases List.mem_cons.mp h with rfl | h
    · dsimp only
      omega
    · have := ih h
      rw [List.length_drop] at this
      omega
  | case3 start c r _ ih =>
    have := ih h
    rw [List.length_cons]
    omega

/-- A form that matches only where its mark stands has no span in a text without that mark. -/
theorem spansFrom_eq_nil {mark : Text}
    (hform : ∀ atStart s hit, form atStart s = some hit → mark <:+: s) (h : ¬mark <:+: s) :
    spansFrom form start s = [] := by
  have hnone : ∀ v, v <:+ s → v ≠ [] → ∀ atStart, form atStart (v ++ []) = none := by
    intro v hv _ atStart
    rw [List.append_nil]
    cases hhit : form atStart v with
    | none => rfl
    | some hit => exact absurd ((hform _ _ _ hhit).trans hv.isInfix) h
  have hskip : spansFrom form start (s ++ []) = spansFrom form (start + s.length) [] :=
    spansFrom_append hnone
  rwa [List.append_nil, spansFrom_nil] at hskip

theorem takeWhile_ne_append {c : Char} {body : Text} (h : c ∉ body) (r : Text) :
    (body ++ c :: r).takeWhile (· != c) = body := by
  rw [List.takeWhile_append_of_pos fun d hd => by simpa using ne_of_mem_of_not_mem hd h]
  simp

theorem dropWhile_ne_append {c : Char} {body : Text} (h : c ∉ body) (r : Text) :
    (body ++ c :: r).dropWhile (· != c) = c :: r := by
  rw [List.dropWhile_append_of_pos fun d hd => by simpa using ne_of_mem_of_not_mem hd h]
  simp

theorem code_eq_some_iff : code atStart s = some hit ↔
    ∃ body r, s = '\x60' :: (body ++ '\x60' :: r) ∧ '\x60' ∉ body ∧ body ≠ [] ∧
      hit = .whole (body.length + 1) := by
  constructor
  · intro h
    unfold code at h
    split at h
    · next r =>
      by_cases hr : '\x60' ∈ r
      · obtain ⟨body, rest, rfl, hbody⟩ := List.eq_append_cons_of_mem hr
        rw [takeWhile_ne_append hbody] at h
        dsimp only at h
        split at h
        · cases h
        · next hne =>
          refine ⟨body, rest, rfl, hbody, ?_, (Option.some.inj h).symm⟩
          rintro rfl
          simp at hne
      · have hall : r.takeWhile (· != '\x60') = r :=
          List.takeWhile_eq_self_iff.mpr fun d hd => by simpa using ne_of_mem_of_not_mem hd hr
        simp [hall] at h
    · cases h
  · rintro ⟨body, r, rfl, hbody, hne, rfl⟩
    rw [code, takeWhile_ne_append hbody]
    simp [hne]

theorem head?_of_code (h : code atStart s = some hit) : s.head? = some '\x60' := by
  obtain ⟨body, r, rfl, -⟩ := code_eq_some_iff.mp h
  rfl

theorem exists_of_untilClose? {close : Text} {n : ℕ} (h : untilClose? close s = some n) :
    ∃ body r, s = body ++ (close ++ r) ∧ body.length = n ∧ body ≠ [] := by
  induction s generalizing n with
  | nil => cases h
  | cons c s ih =>
    rw [untilClose?] at h
    split at h
    · cases h
    · split at h
      · next hclose =>
        obtain ⟨r, rfl⟩ := List.isPrefixOf_iff_prefix.mp hclose
        obtain rfl := Option.some.inj h
        exact ⟨[c], r, rfl, rfl, List.cons_ne_nil c []⟩
      · obtain ⟨m, hm, rfl⟩ := Option.map_eq_some_iff.mp h
        obtain ⟨body, r, rfl, rfl, -⟩ := ih hm
        exact ⟨c :: body, r, rfl, rfl, List.cons_ne_nil c body⟩

theorem untilClose?_append {m : Char} {close body r : Text} (hbody : m ∉ body)
    (hline : '\n' ∉ body) (hne : body ≠ []) :
    untilClose? (m :: close) (body ++ (m :: close ++ r)) = some body.length := by
  induction body with
  | nil => exact absurd rfl hne
  | cons c body ih =>
    rw [List.mem_cons, not_or] at hbody hline
    rw [List.cons_append, untilClose?, if_neg (Ne.symm hline.1)]
    cases body with
    | nil => simp
    | cons d body =>
      have hd : m ≠ d := fun hd => hbody.2 (hd ▸ List.mem_cons_self)
      rw [if_neg (by simp [hd]), ih hbody.2 hline.2 (List.cons_ne_nil d body)]
      rfl

theorem exists_of_fenced {mark : Text} (h : fenced mark atStart s = some hit) :
    ∃ body r, s = mark ++ (body ++ (mark ++ r)) ∧ body ≠ [] ∧
      hit = .whole (2 * mark.length + body.length - 1) := by
  rw [fenced] at h
  split at h
  · next rest hrest =>
    obtain ⟨n, hn, rfl⟩ := Option.map_eq_some_iff.mp h
    obtain ⟨body, r, rfl, rfl, hne⟩ := exists_of_untilClose? hn
    exact ⟨body, r, (List.isPrefixOf?_eq_some_iff_append_eq.mp hrest).symm, hne, rfl⟩
  · cases h

theorem head?_of_fenced {m : Char} {mark : Text} (h : fenced (m :: mark) atStart s = some hit) :
    s.head? = some m := by
  obtain ⟨body, r, rfl, -⟩ := exists_of_fenced h
  rfl

theorem fenced_append {m : Char} {mark body r : Text} (hbody : m ∉ body) (hline : '\n' ∉ body)
    (hne : body ≠ []) :
    fenced (m :: mark) atStart (m :: mark ++ (body ++ (m :: mark ++ r))) =
      some (.whole (2 * (m :: mark).length + body.length - 1)) := by
  have hmark : List.isPrefixOf? (m :: mark) (m :: mark ++ (body ++ (m :: mark ++ r))) =
      some (body ++ (m :: mark ++ r)) :=
    List.isPrefixOf?_eq_some_iff_append_eq.mpr rfl
  rw [fenced, hmark]
  dsimp only
  rw [untilClose?_append hbody hline hne]
  rfl

theorem exists_of_passMacro (h : passMacro atStart s = some hit) :
    ∃ letters body r, s = "pass:".toList ++ (letters ++ '[' :: (body ++ ']' :: r)) ∧
      hit = .whole (5 + letters.length + 1 + body.length) := by
  rw [passMacro] at h
  split at h
  · next rest hrest =>
    dsimp only at h
    split at h
    · next body hbody =>
      split at h
      · next hclose =>
        obtain ⟨text, r, rfl, htext⟩ := List.eq_append_cons_of_mem hclose
        rw [takeWhile_ne_append htext] at h
        refine ⟨_, text, r, ?_, (Option.some.inj h).symm⟩
        rw [← hbody, List.takeWhile_append_dropWhile]
        exact (List.isPrefixOf?_eq_some_iff_append_eq.mp hrest).symm
      · cases h
    · cases h
  · cases h

/-- The text can stand between two plus signs: it has none itself and no blank at either end. -/
structure IsTight (body : Text) : Prop where
  ne_nil : body ≠ []
  head : ∀ c ∈ body.head?, ¬isBlank c
  last : ∀ c ∈ body.getLast?, ¬isBlank c

theorem isTight_iff {body : Text} :
    IsTight body ↔ ¬(body.head?.all isBlank || body.getLast?.all isBlank) := by
  by_cases hne : body = []
  · subst hne
    exact iff_of_false (fun h => h.ne_nil rfl) (by simp)
  · have hhead := List.head?_eq_some_head hne
    have hlast := List.getLast?_eq_some_getLast hne
    constructor
    · rintro ⟨-, hfirst, hfinal⟩
      simp [hhead, hlast, hfirst _ hhead, hfinal _ hlast]
    · intro h
      rw [hhead, hlast, Option.all_some, Option.all_some, Bool.or_eq_true, not_or] at h
      exact ⟨hne, by simpa [hhead] using h.1, by simpa [hlast] using h.2⟩

instance (body : Text) : Decidable (IsTight body) := decidable_of_iff' _ isTight_iff

/-- A plus sign in front of the text can close a constrained passthrough. -/
def EndsPlus (behind : Text) : Prop := ∀ c ∈ behind.head?, ¬isWord c ∧ c ≠ '+'

theorem constrainedHere?_eq_some_iff {found : ℕ × Bool} : constrainedHere? s = some found ↔
    ∃ body behind, s = '+' :: (body ++ '+' :: behind) ∧ '+' ∉ body ∧ IsTight body ∧
      EndsPlus behind ∧ found = (body.length + 2, !behind.isEmpty) := by
  constructor
  · intro h
    unfold constrainedHere? at h
    split at h
    · next r =>
      by_cases hr : '+' ∈ r
      · obtain ⟨body, behind, rfl, hbody⟩ := List.eq_append_cons_of_mem hr
        rw [takeWhile_ne_append hbody, dropWhile_ne_append hbody] at h
        dsimp only at h
        split at h
        · cases h
        · next htight =>
          refine ⟨body, behind, rfl, hbody, isTight_iff.mpr htight, ?_⟩
          cases behind with
          | nil => exact ⟨by simp [EndsPlus], (Option.some.inj h).symm⟩
          | cons c behind =>
            dsimp only at h
            split at h
            · cases h
            · next hc => exact ⟨by simpa [EndsPlus] using hc, (Option.some.inj h).symm⟩
      · have hall : r.dropWhile (· != '+') = [] :=
          List.dropWhile_eq_nil_iff.mpr fun d hd => by simpa using ne_of_mem_of_not_mem hd hr
        simp [hall] at h
    · cases h
  · rintro ⟨body, behind, rfl, hbody, htight, hbehind, rfl⟩
    rw [constrainedHere?, takeWhile_ne_append hbody, dropWhile_ne_append hbody]
    dsimp only
    rw [if_neg (isTight_iff.mp htight)]
    cases behind with
    | nil => rfl
    | cons c behind =>
      dsimp only
      rw [if_neg (by simpa [EndsPlus] using hbehind)]
      rfl

theorem exists_of_constrained (h : constrained atStart s = some hit) :
    ∃ lead r n more, s = lead ++ r ∧ constrainedHere? r = some (n, more) ∧
      hit.span = ⟨lead.length, lead.length + n⟩ ∧ hit.length = lead.length + n + more.toNat := by
  unfold constrained at h
  rw [Option.or_eq_some_iff] at h
  rcases h with h | ⟨-, h⟩
  · split at h
    · split at h
      · next n more hn =>
        obtain rfl := Option.some.inj h
        exact ⟨[], s, n + 1, more, rfl, hn, by simp, by simp⟩
      · cases h
    · cases h
  · split at h
    · next c r =>
      split at h
      · cases h
      · split at h
        · next n more hn =>
          obtain rfl := Option.some.inj h
          exact ⟨[c], r, n, more, rfl, hn, rfl, rfl⟩
        · cases h
    · cases h

theorem constrainedHere?_eq_none (h : s.head? ≠ some '+') : constrainedHere? s = none := by
  cases hs : constrainedHere? s with
  | none => rfl
  | some found =>
    obtain ⟨body, behind, rfl, -⟩ := constrainedHere?_eq_some_iff.mp hs
    exact absurd rfl h

/-- A constrained passthrough is found behind a character that is no plus sign only if it stands
there. -/
theorem constrained_cons_eq_none {c : Char} (hc : c ≠ '+') (h : constrainedHere? s = none) :
    constrained atStart (c :: s) = none := by
  rw [constrained, constrainedHere?_eq_none (by simpa using hc), h]
  simp

theorem constrained_plus_eq_none : constrained false ('+' :: s) = none := by
  simp [constrained]

theorem constrained_atStart {n : ℕ} {more : Bool} (h : constrainedHere? s = some (n, more)) :
    ∃ hit, constrained true s = some hit ∧ hit.length = n + more.toNat ∧ hit.span = ⟨0, n⟩ := by
  obtain ⟨body, behind, rfl, -, -, -, hfound⟩ := constrainedHere?_eq_some_iff.mp h
  obtain ⟨rfl, rfl⟩ := Prod.mk.inj hfound
  refine ⟨⟨body.length + 1 + 1 + (!behind.isEmpty).toNat, ⟨0, body.length + 1 + 1⟩, by omega⟩,
    ?_, rfl, rfl⟩
  simp [constrained, h]

theorem constrained_cons {c : Char} {n : ℕ} {more : Bool} (hword : ¬isWord c) (hc : c ≠ '+')
    (h : constrainedHere? s = some (n, more)) :
    ∃ hit, (∀ atStart, constrained atStart (c :: s) = some hit) ∧
      hit.length = 1 + n + more.toNat ∧ hit.span = ⟨1, 1 + n⟩ := by
  refine ⟨⟨1 + n + more.toNat, ⟨1, 1 + n⟩, by omega⟩, fun atStart => ?_, rfl, rfl⟩
  rw [constrained, constrainedHere?_eq_none (by simpa using hc), h]
  simp [hword, hc]

theorem fits_of_mem_forms (hform : form ∈ forms) (h : form atStart s = some hit) : hit.Fits s := by
  have hfenced : ∀ mark, fenced mark atStart s = some hit → hit.Fits s := by
    intro mark h
    obtain ⟨body, r, rfl, hne, rfl⟩ := exists_of_fenced h
    have := List.length_pos_of_ne_nil hne
    refine ⟨le_rfl, ?_⟩
    simp only [Hit.whole, List.length_append]
    omega
  simp only [forms, List.mem_cons, List.not_mem_nil, or_false] at hform
  rcases hform with rfl | rfl | rfl | rfl | rfl | rfl
  · obtain ⟨letters, body, r, rfl, rfl⟩ := exists_of_passMacro h
    refine ⟨le_rfl, ?_⟩
    have hpass : "pass:".toList.length = 5 := rfl
    simp only [Hit.whole, List.length_append, List.length_cons, hpass]
    omega
  · exact hfenced _ h
  · exact hfenced _ h
  · obtain ⟨lead, r, n, more, rfl, hr, hspan, hlength⟩ := exists_of_constrained h
    obtain ⟨body, behind, rfl, -, -, -, hfound⟩ := constrainedHere?_eq_some_iff.mp hr
    obtain ⟨rfl, rfl⟩ := Prod.mk.inj hfound
    rw [Hit.Fits, hspan, hlength]
    refine ⟨Nat.le_add_right _ _, ?_⟩
    cases behind with
    | nil => simp
    | cons c behind =>
      simp only [List.length_append, List.length_cons, List.isEmpty_cons, Bool.not_false,
        Bool.toNat_true]
      omega
  · exact hfenced _ h
  · obtain ⟨body, r, rfl, -, -, rfl⟩ := code_eq_some_iff.mp h
    refine ⟨le_rfl, ?_⟩
    simp only [Hit.whole, List.length_append, List.length_cons]
    omega

theorem isLiteral_of_length_le {line : Text} {column : ℕ} (h : line.length ≤ column) :
    isLiteral line column = false := by
  rw [isLiteral, List.any_eq_false]
  intro span hspan
  obtain ⟨form, hform, hspan⟩ := List.mem_flatMap.mp hspan
  have := stop_le_of_mem_spansFrom (fun _ _ _ => fits_of_mem_forms hform) hspan
  simp only [Span.covers, Bool.and_eq_true, decide_eq_true_eq, not_and]
  omega

/-- The text has none of the marks that inline forms are recognised by. -/
structure Bare (t : Text) : Prop where
  tick : '\x60' ∉ t
  plus : '+' ∉ t
  pass : ¬"pass:".toList <:+: t

instance (t : Text) : Decidable (Bare t) :=
  decidable_of_iff ('\x60' ∉ t ∧ '+' ∉ t ∧ ¬"pass:".toList <:+: t)
    ⟨fun ⟨htick, hplus, hpass⟩ => ⟨htick, hplus, hpass⟩, fun h => ⟨h.tick, h.plus, h.pass⟩⟩

theorem spansFrom_passMacro (h : ¬"pass:".toList <:+: s) : spansFrom passMacro start s = [] := by
  refine spansFrom_eq_nil (fun atStart s hit hhit => ?_) h
  obtain ⟨letters, body, r, rfl, -⟩ := exists_of_passMacro hhit
  exact (List.prefix_append _ _).isInfix

theorem spansFrom_fenced {mark : Text} (h : ¬mark <:+: s) :
    spansFrom (fenced mark) start s = [] := by
  refine spansFrom_eq_nil (fun atStart s hit hhit => ?_) h
  obtain ⟨body, r, rfl, -⟩ := exists_of_fenced hhit
  exact (List.prefix_append _ _).isInfix

theorem spansFrom_code (h : '\x60' ∉ s) : spansFrom code start s = [] := by
  have hskip : spansFrom code start (s ++ []) = spansFrom code (start + s.length) [] :=
    spansFrom_append_of_not_mem (fun _ _ _ => head?_of_code) h
  rwa [List.append_nil, spansFrom_nil] at hskip

theorem spansFrom_constrained (h : '+' ∉ s) : spansFrom constrained start s = [] := by
  refine spansFrom_eq_nil (fun atStart s hit hhit => ?_)
    (mt (List.singleton_infix_iff '+' s).mp h)
  obtain ⟨lead, r, n, more, rfl, hr, -⟩ := exists_of_constrained hhit
  obtain ⟨body, behind, rfl, -⟩ := constrainedHere?_eq_some_iff.mp hr
  exact (List.singleton_infix_iff _ _).mpr (List.mem_append_right _ List.mem_cons_self)

theorem not_infix_of_not_mem {c : Char} {mark : Text} (h : c ∉ s) (hc : c ∈ mark) :
    ¬mark <:+: s :=
  fun hmark => h (hmark.subset hc)

theorem isLiteral_of_bare {line : Text} (h : Bare line) (column : ℕ) :
    isLiteral line column = false := by
  have hspans : spans line = [] := by
    simp only [spans, forms, List.flatMap_cons, List.flatMap_nil]
    rw [spansFrom_passMacro h.pass, spansFrom_constrained h.plus, spansFrom_code h.tick,
      spansFrom_fenced (not_infix_of_not_mem h.plus (by simp)),
      spansFrom_fenced (not_infix_of_not_mem h.plus (by simp)),
      spansFrom_fenced (not_infix_of_not_mem h.tick (by simp))]
    rfl
  rw [isLiteral, hspans, List.any_nil]

end Errata.Markup.Inline
