import Errata.Proofs.Markup.Inline
import Errata.Proofs.Rule.EntityGuard
import Errata.Proofs.Text.Trim

/-!
# Entities in prose

Outside of blocks only the inline literals of a line keep its entities, and a line without any mark
has none. A known entity in such a line is always replaced, wherever the report says that it stands.
-/
namespace Errata.Rule.Entity

open Text Markup

/-- The text is the entity of that name, with its terminator or without one, and white space
around it. -/
def Spells (matched : Text) (name : String) : Prop :=
  ∃ before terminator after, blank before ∧ blank after ∧
    (terminator = [';'] ∨ terminator = []) ∧
    matched = before ++ (['&'] ++ name.toList ++ terminator) ++ after

/-- Every name of the table is found again by its entity, and no entity needs trimming. -/
theorem lookup?_of_mem {entry : String × String} (h : entry ∈ attributes) :
    lookup? (entityText entry.1) = some (referenceText entry.2) ∧
      trim (entityText entry.1) = entityText entry.1 ∧
      trim (['&'] ++ entry.1.toList) = ['&'] ++ entry.1.toList ∧
      (['&'] ++ entry.1.toList).getLast? ≠ some ';' := by
  revert entry
  decide +kernel

theorem replacement?_of_spells {entry : String × String} (h : entry ∈ attributes) {matched : Text}
    (hmatched : Spells matched entry.1) : replacement? matched = some (referenceText entry.2) := by
  obtain ⟨hlookup, hwhole, hbare, hlast⟩ := lookup?_of_mem h
  obtain ⟨before, terminator, after, hbefore, hafter, rfl | rfl, rfl⟩ := hmatched
  · have htrim : trim (before ++ entityText entry.1 ++ after) = entityText entry.1 :=
      trim_between hbefore hafter hwhole (by simp [entityText])
    have hterminated : (entityText entry.1).getLast? = some ';' := List.getLast?_concat
    rw [← entityText, replacement?, htrim, if_pos hterminated, hlookup]
  · have htrim : trim (before ++ (['&'] ++ entry.1.toList) ++ after) = ['&'] ++ entry.1.toList :=
      trim_between hbefore hafter hbare (by simp)
    rw [List.append_nil, replacement?, htrim, if_neg hlast, ← hlookup, entityText]

theorem mayReplace_of_bare {lines : List Text} {row : ℕ} {line : Text}
    (hline : lines[row]? = some line) (hblock : blockAt lines row = none)
    (hbare : Inline.Bare line) (column : ℕ) : mayReplace lines row column = true := by
  simp [mayReplace, hline, hblock, Inline.isLiteral_of_bare hbare]

theorem exists_plan {v : Violation} {content replacement : Text}
    (hreplacement : replacement? v.originalText = some replacement)
    (hallowed : mayReplace (lines content) v.row v.col = true) :
    ∃ f, plan v content = some f ∧ f.replacement = replacement := by
  simp only [plan, hreplacement, hallowed, Option.bind_eq_bind, Option.bind_some, if_true]
  exact ⟨_, rfl, rfl⟩

/-- A known entity in prose always gets the fix that the table has for it, whatever column the
report names; and no column beyond the end of a line lies in a literal. -/
theorem prose_always_eligible :
    (∀ (v : Violation) (content line : Text), ∀ entry ∈ attributes,
      Spells v.originalText entry.1 → (lines content)[v.row]? = some line →
      blockAt (lines content) v.row = none → Inline.Bare line →
      ∃ f, entityReference.plan v content = some f ∧ f.replacement = referenceText entry.2) ∧
    ∀ (line : Text) (column : ℕ), line.length ≤ column →
      Inline.isLiteral line column = false := by
  refine ⟨?_, fun line column h => Inline.isLiteral_of_length_le h⟩
  intro v content line entry hentry hspelled hline hblock hbare
  exact exists_plan (replacement?_of_spells hentry hspelled)
    (mayReplace_of_bare hline hblock hbare v.col)

/-- The report comes far behind the end of its line and has blanks in place of the terminator. -/
theorem prose_always_eligible_farReport :
    (∃ f, entityReference.plan
        { earlyReport with line := 2, column := 40, originalText := "\u00A0&vert\t" }
        "= T\r\né &vert; b" = some f ∧ f.replacement = "\x7bvbar\x7d") ∧
      Inline.isLiteral "é &vert; b" 39 = false := by
  obtain ⟨hplanned, hbeyond⟩ := prose_always_eligible
  refine ⟨?_, hbeyond _ _ (by decide)⟩
  exact hplanned { earlyReport with line := 2, column := 40, originalText := "\u00A0&vert\t" }
    "= T\r\né &vert; b" "é &vert; b" ("vert", "vbar") (by decide)
    ⟨"\u00A0", [], "\t", by decide, by decide, .inr rfl, by decide⟩ (by decide) (by decide)
    ⟨by decide, by decide, by decide⟩

end Errata.Rule.Entity
