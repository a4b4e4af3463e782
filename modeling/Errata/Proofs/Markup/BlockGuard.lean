import Errata.Markup.Replaceable
import Errata.Proofs.Markup.OpenBlocks
import Errata.Proofs.Markup.Substitutions

/-!
# Replacements in a block

In a block a replacement may be made exactly where its declared `subs` expression leaves the
`replacements` substitution, and nowhere if none is declared. Neither what stands above nor what
stands in the block makes a difference, as long as the fence is one and no line of the block ends
it. Inline literals are never touched.
-/
namespace Errata.Markup

open Text

variable {lines above body : List Text} {fence : Fence} {b : Block} {n : ℕ} {line : Text}

namespace Attribute

/-- An attribute line with a `subs` entry: the word stands behind a bracket, a comma or a blank, and
an equals sign follows it. -/
def DeclaresSubs (line : Text) : Prop :=
  isLine (trim line) ∧ ∃ before c blanks value,
    trim line = before ++ c :: ("subs".toList ++ blanks ++ '=' :: value) ∧
      (c = '[' ∨ c = ',' ∨ isBlank c) ∧ Text.blank blanks

theorem isSome_afterName?_iff {s : Text} :
    (afterName? s).isSome ↔
      ∃ blanks value, s = "subs".toList ++ blanks ++ '=' :: value ∧ Text.blank blanks := by
  unfold afterName?
  constructor
  · intro h
    split at h
    · next rest hword =>
      obtain rfl := List.isPrefixOf?_eq_some_iff_append_eq.mp hword
      split at h
      · next value hvalue =>
        refine ⟨rest.takeWhile isBlank, value, ?_, List.all_takeWhile⟩
        rw [List.append_assoc, ← hvalue, List.takeWhile_append_dropWhile]
      · cases h
    · cases h
  · rintro ⟨blanks, value, rfl, hblanks⟩
    have hword : List.isPrefixOf? "subs".toList ("subs".toList ++ blanks ++ '=' :: value) =
        some (blanks ++ '=' :: value) := by
      rw [List.isPrefixOf?_eq_some_iff_append_eq, List.append_assoc]
    have hrest : (blanks ++ '=' :: value).dropWhile isBlank = '=' :: value := by
      rw [List.dropWhile_append_of_pos (List.all_eq_true.mp hblanks)]
      exact List.dropWhile_cons_of_neg (by decide)
    simp only [hword, hrest, Option.isSome_some]

theorem isSome_within?_iff {s : Text} :
    (within? s).isSome ↔ ∃ before c rest, s = before ++ c :: rest ∧
      (c = '[' ∨ c = ',' ∨ isBlank c) ∧ (afterName? rest).isSome := by
  induction s with
  | nil => simp [within?]
  | cons c r ih =>
    have hhere : (within? (c :: r)).isSome ↔
        ((c = '[' ∨ c = ',' ∨ isBlank c) ∧ (afterName? r).isSome) ∨ (within? r).isSome := by
      rw [within?]
      split
      · next hc => cases afterName? r <;> simp [hc]
      · next hc => simp [hc]
    rw [hhere, ih]
    constructor
    · rintro (⟨hc, hr⟩ | ⟨before, d, rest, rfl, hd, hrest⟩)
      · exact ⟨[], c, r, rfl, hc, hr⟩
      · exact ⟨c :: before, d, rest, rfl, hd, hrest⟩
    · rintro ⟨before, d, rest, hs, hd, hrest⟩
      cases before with
      | nil =>
        obtain ⟨rfl, rfl⟩ := List.cons.inj hs
        exact .inl ⟨hd, hrest⟩
      | cons x before =>
        obtain ⟨-, rfl⟩ := List.cons.inj hs
        exact .inr ⟨before, d, rest, rfl, hd, hrest⟩

theorem isSome_given?_iff : (given? line).isSome ↔ DeclaresSubs line := by
  unfold given? DeclaresSubs
  by_cases hline : isLine (trim line)
  · have hfirst : (trim line).head? = some '[' := by
      simp only [isLine, Bool.and_eq_true, beq_iff_eq] at hline
      exact hline.1.1
    -- The word does not stand at the start, where the bracket is.
    have hstart : afterName? (trim line) = none := by
      obtain ⟨rest, hrest⟩ := List.head?_eq_some_iff.mp hfirst
      rw [hrest]
      rfl
    rw [if_pos hline, subs?, hstart, Option.map_none, Option.none_or, Option.isSome_map,
      isSome_within?_iff, and_iff_right hline]
    simp only [isSome_afterName?_iff]
    constructor
    · rintro ⟨before, c, rest, htrim, hc, blanks, value, rfl, hblanks⟩
      exact ⟨before, c, blanks, value, htrim, hc, hblanks⟩
    · rintro ⟨before, c, blanks, value, htrim, hc, hblanks⟩
      exact ⟨before, c, _, htrim, hc, blanks, value, rfl, hblanks⟩
  · simp [hline]

/-- The attribute line of a source block that declares an expression. -/
def sourceLine (expr : Text) : Text := "[source,subs=\"".toList ++ expr ++ "\"]".toList

theorem sourceLine_eq (expr : Text) : sourceLine expr =
    ['[', 's', 'o', 'u', 'r', 'c', 'e', ',', 's', 'u', 'b', 's', '=', '"'] ++ expr ++
      ['"', ']'] := by
  have hstart : "[source,subs=\"".toList =
      ['[', 's', 'o', 'u', 'r', 'c', 'e', ',', 's', 'u', 'b', 's', '=', '"'] := by decide
  have hstop : "\"]".toList = ['"', ']'] := by decide
  unfold sourceLine
  rw [hstart, hstop]

theorem given?_sourceLine {expr : Text} (h : '"' ∉ expr) :
    given? (sourceLine expr) = some (trim expr) := by
  have hfirst : (sourceLine expr).head? = some '[' := by
    rw [sourceLine_eq]
    rfl
  have hlast : (sourceLine expr).getLast? = some ']' := by
    rw [sourceLine_eq, List.getLast?_append_of_ne_nil _ (by simp)]
    rfl
  have htrim : trim (sourceLine expr) = sourceLine expr := by
    rw [trim_eq_self_iff, hfirst, hlast]
    constructor
    all_goals
      rintro c hc
      obtain rfl := Option.some.inj hc
      decide
  have hline : isLine (sourceLine expr) := by
    rw [isLine, hfirst, hlast, sourceLine_eq]
    rfl
  have hwithin : within? (sourceLine expr) = some (value ('"' :: (expr ++ ['"', ']']))) := by
    rw [sourceLine_eq]
    rfl
  have hvalue : (expr ++ ['"', ']']).takeWhile (· != '"') = expr := by
    rw [List.takeWhile_append_of_pos fun c hc => by
      have hne : c ≠ '"' := fun heq => h (heq ▸ hc)
      simpa using hne]
    simp
  have hstart : afterName? (sourceLine expr) = none := by
    rw [sourceLine_eq]
    rfl
  rw [given?, htrim, if_pos hline, subs?, hstart, hwithin]
  simp [value, upTo?, hvalue]

end Attribute

theorem getElem?_behind (above : List Text) (line : Text) (body : List Text) (i : ℕ) :
    (above ++ line :: body)[above.length + 1 + i]? = body[i]? := by
  have hindex : above.length + 1 + i = above.length + (i + 1) := by omega
  rw [hindex, List.getElem?_append_right (Nat.le_add_right _ _), Nat.add_sub_cancel_left,
    List.getElem?_cons_succ]

/-- A fence behind prose opens a block that lasts as long as no line equals its delimiter. -/
theorem blockAt_behind_fence (hprose : (Scan.after above).region = .prose)
    (hbody : ∀ line ∈ body, trim line ≠ fence.delimiter) (i : ℕ) :
    blockAt (above ++ fence.delimiter :: body) (above.length + 1 + i) =
      some ⟨fence, above.length, Attribute.subsAbove (Scan.after above).above⟩ := by
  have htake : (above ++ fence.delimiter :: body).take above.length = above := List.take_left
  have hfence : IsDelimiterAt (above ++ fence.delimiter :: body) fence above.length := by
    have hself : trim fence.delimiter = fence.delimiter := by cases fence <;> decide
    simp [IsDelimiterAt, hself]
  have hopen := blockAt_succ_of_fence hfence (by rwa [htake])
  rw [htake] at hopen
  refine blockAt_of_content hopen (by omega) ?_
  intro j hj hji hend
  obtain ⟨k, rfl⟩ : ∃ k, j = above.length + 1 + k := ⟨j - (above.length + 1), by omega⟩
  rw [IsDelimiterAt, getElem?_behind] at hend
  obtain ⟨line, hline, htrim⟩ := Option.map_eq_some_iff.mp hend
  exact hbody line (List.mem_of_getElem? hline) htrim

theorem mayReplace_behind_fence (hprose : (Scan.after above).region = .prose)
    (hbody : ∀ line ∈ body, trim line ≠ fence.delimiter) {i : ℕ} (hline : body[i]? = some line)
    (column : ℕ) : mayReplace (above ++ fence.delimiter :: body) (above.length + 1 + i) column =
      (!Inline.isLiteral line column &&
        (Block.active ⟨fence, above.length, Attribute.subsAbove (Scan.after above).above⟩).contains
          Substitutions.replacements) := by
  rw [mayReplace, getElem?_behind, hline, blockAt_behind_fence hprose hbody i, Option.any_some]
  cases Inline.isLiteral line column <;> rfl

/-- Whatever precedes the block and stands in it, a replacement may be made in its lines, outside of
inline literals, exactly if its declared expression leaves `replacements`, and nowhere in them if
none is declared in the two lines above its fence. -/
theorem guard_follows_declaration (hprose : (Scan.after above).region = .prose)
    (hbody : ∀ line ∈ body, trim line ≠ fence.delimiter) :
    (∀ expr, '"' ∉ expr → ∀ i line column, body[i]? = some line →
      Inline.isLiteral line column = false →
        (mayReplace (above ++ [Attribute.sourceLine expr, fence.delimiter] ++ body)
            (above.length + 2 + i) column = true ↔
          Substitutions.replacements ∈ Substitutions.resolve expr [])) ∧
    ((∀ line ∈ above.reverse.take 2, ¬Attribute.DeclaresSubs line) →
      ∀ i < body.length, ∀ column,
        mayReplace (above ++ [fence.delimiter] ++ body) (above.length + 1 + i) column = false) := by
  constructor
  · intro expr hquote i line column hline hliteral
    have hgiven := Attribute.given?_sourceLine hquote
    have hregion : (Scan.after (above ++ [Attribute.sourceLine expr])).region = .prose := by
      rw [Scan.after_append_singleton, Scan.step,
        Scan.regionAfter_of_not_isDelimiter _ (Attribute.not_isDelimiter_of_given? hgiven), hprose]
    have hsubs : Attribute.subsAbove (Scan.after (above ++ [Attribute.sourceLine expr])).above =
        some (trim expr) := by
      rw [Attribute.subsAbove_eq_findSome?, Scan.above_after, List.reverse_concat,
        List.take_succ_cons, List.findSome?_cons, hgiven]
    have hguard := mayReplace_behind_fence hregion hbody hline column
    have hlength : above.length + 2 + i =
        (above ++ [Attribute.sourceLine expr]).length + 1 + i := by simp
    rw [List.append_cons, List.append_assoc, List.singleton_append, hlength, hguard, hsubs,
      hliteral, Block.active]
    simp [Substitutions.resolve_trim]
  · intro hnone i hi column
    have hsubs : Attribute.subsAbove (Scan.after above).above = none := by
      rw [Attribute.subsAbove_eq_findSome?, Scan.above_after, List.findSome?_eq_none_iff]
      intro line hline
      rw [← Option.not_isSome_iff_eq_none, Attribute.isSome_given?_iff]
      exact hnone line hline
    rw [List.append_assoc, List.singleton_append,
      mayReplace_behind_fence hprose hbody (List.getElem?_eq_getElem hi), hsubs]
    simp [Block.active]

/-- A listing below a comment, with a fence of another kind and a comment delimiter in it. -/
theorem guard_follows_declaration_listing :
    let above : List Text := ["////", "note", "////"]
    let body : List Text := ["....", "////", "a &nbsp; b"]
    (Scan.after above).region = .prose ∧
      (∀ line ∈ body, trim line ≠ Fence.listing.delimiter) ∧
      mayReplace (above ++ [Attribute.sourceLine "quotes,+r", Fence.listing.delimiter] ++ body)
        (above.length + 2 + 2) 2 = true ∧
      mayReplace (above ++ [Fence.listing.delimiter] ++ body) (above.length + 1 + 2) 2 = false := by
  intro above body
  have hprose : (Scan.after above).region = .prose := by decide
  have hbody : ∀ line ∈ body, trim line ≠ Fence.listing.delimiter := by decide
  have hnone : ∀ line ∈ above.reverse.take 2, ¬Attribute.DeclaresSubs line := by
    simp only [← Attribute.isSome_given?_iff]
    decide
  obtain ⟨hdeclared, hundeclared⟩ := guard_follows_declaration hprose hbody
  have hplain : Inline.isLiteral "a &nbsp; b" 2 = false := by decide +kernel
  refine ⟨hprose, hbody, ?_, hundeclared hnone 2 (by decide) 2⟩
  exact (hdeclared "quotes,+r" (by decide) 2 "a &nbsp; b" 2 rfl hplain).mpr (by decide)

end Errata.Markup
