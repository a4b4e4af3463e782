import Errata.Json.Writer
import Errata.Proofs.Alert.Payload
import Errata.Proofs.Edit.Endings
import Errata.Proofs.Rule.Annotations
import Errata.Proofs.Text.Pieces

/-!
# One comment for one report

The comment of a violation is seen again if the line above, trimmed, is equal to it. A line break in
the check spreads it over several lines, none of which is; and without a message it ends in a blank,
which no trimmed line does. Such a comment is put in again on every run, every other one is a single
line and is put in once.
-/
namespace Errata.Rule.Annotation

open Text (lines trim blank)

/-- The comment can be seen again: it stands on one line and says something. -/
structure IsRecognisable (v : Violation) : Prop where
  checkId : '\n' ∉ v.checkId
  message : ¬ blank v.message

variable {v : Violation} {f : Fix} {content : Text}

theorem isRecognisable_of_isPresent (h : isPresent v content) : IsRecognisable v := by
  obtain ⟨-, hline⟩ := isPresent_iff.mp h
  rw [List.getElem?_map] at hline
  obtain ⟨line, hmem, htext⟩ := Option.map_eq_some_iff.mp hline
  have hnewline : '\n' ∉ line := Edit.newline_not_mem_lines (List.mem_of_getElem? hmem)
  constructor
  · intro hcheck
    have htrim : '\n' ∈ trim line := htext ▸ newline_mem_text_iff.mpr hcheck
    exact hnewline ((Text.trim_sublist line).mem htrim)
  · rw [← trim_text_iff, ← htext, Text.trim_trim]

/-- The lines that are put in, the first of which begins with the mark. -/
theorem newLines_eq_cons (hf : f.replacement = text v) : ∃ first rest,
    Edit.newLines f = first :: rest ∧ ("// docfix:" : Text) <+: first ∧
      rest.length = v.checkId.count '\n' := by
  let said : Text := " " ++ v.checkId ++ " [" ++ v.severity.name ++ "] " ++ trim (message v)
  have htext : text v = "// docfix:" ++ said := by
    simp only [text_eq, said, ← List.append_assoc]
    rfl
  obtain ⟨piece, pieces, hpieces⟩ := List.exists_cons_of_ne_nil (List.splitOn_ne_nil '\n' said)
  have hsplit : (text v).splitOn '\n' = ("// docfix:" ++ piece) :: pieces := by
    rw [htext, Text.splitOn_append (by decide), hpieces, List.modifyHead_cons]
  have hlength : pieces.length = v.checkId.count '\n' := by
    have hcount := Text.length_splitOn '\n' (text v)
    rw [hsplit, count_newline_text, List.length_cons] at hcount
    omega
  have hmark : ∀ c, ("// docfix:" : Text).getLast? = some c → ¬ (c == '\r') = true := by
    intro c hc
    have hlast : some ':' = some c := hc
    rw [← Option.some.inj hlast]
    decide
  rw [Edit.newLines, hf, hsplit, List.map_cons, Text.dropEndWhile_append hmark]
  exact ⟨_, _, rfl, List.prefix_append _ _, by rw [List.length_map, hlength]⟩

theorem isPresent_below {after : Text} (h : IsRecognisable v) (hone : 1 ≤ v.line)
    (hline : (lines after)[v.row]? = some (text v)) :
    isPresent { v with line := v.line + 1 } after := by
  have hrow : ({ v with line := v.line + 1 } : Violation).row - 1 = v.row := rfl
  refine isPresent_iff.mpr ⟨Nat.lt_of_lt_of_le Nat.zero_lt_one hone, ?_⟩
  rw [hrow, List.getElem?_map, hline, Option.map_some, trim_text_iff.mpr h.message]
  rfl

/-- The comment for a violation that a payload reports is put in above the line of the violation. It
begins with the mark and stands on one line, and on one more for each line break in the check. One
line further down the violation is not marked again exactly if its comment is recognisable; if it is
not, the violation is marked on every line of every text. -/
theorem annotation_recognised_iff {base : Path} {payload : Text} {vs : List Violation}
    {v : Violation} {name : Text} {dependencies : List Text} {content : Text} {f : Fix}
    (hread : Payload.read base payload = .ok vs) (hv : v ∈ vs)
    (hline : v.line ≤ (lines content).length)
    (hf : (flag name dependencies).plan v content = some f) :
    let out := Edit.apply content [f]
    (out.applied = [f] ∧ out.skipped = []) ∧
    (∃ first rest,
      lines out.content =
        (lines content).take v.row ++ first :: rest ++ (lines content).drop v.row ∧
      ("// docfix:" : Text) <+: first ∧ rest.length = v.checkId.count '\n' ∧
      ('\n' ∉ v.checkId → first = text v)) ∧
    ((flag name dependencies).plan { v with line := v.line + 1 } out.content = none ↔
      IsRecognisable v) ∧
    ∀ line after, (flag name dependencies).plan { v with line := line } after = none →
      IsRecognisable v := by
  intro out
  obtain ⟨file, a, hreport⟩ := Payload.exists_report_of_mem_read hread hv
  obtain ⟨-, field, -, hdescribes⟩ := Alert.report?_describes hreport
  have hone : 1 ≤ v.line := hdescribes.one_le_line
  obtain ⟨hplacement, hrow, htext⟩ := plan_puts hf
  have hinserts : f.placement.inserts := by rw [hplacement]; rfl
  have hlt : f.row < (lines content).length := by
    rw [hrow, Violation.row]
    omega
  have hpass := Edit.pass_of_inserts hinserts (Nat.le_of_lt hlt)
  have hlines : lines out.content =
      (lines content).take v.row ++ Edit.newLines f ++ (lines content).drop v.row := by
    rw [← hrow]
    exact Edit.lines_apply_of_inserts hinserts hlt
  have hseen : ∀ line after, (flag name dependencies).plan { v with line := line } after = none →
      IsRecognisable v := fun line after hnone => by
    obtain ⟨hcheck, hmessage⟩ := isRecognisable_of_isPresent (plan_eq_none_iff.mp hnone)
    exact ⟨hcheck, hmessage⟩
  refine ⟨?_, ?_, ⟨hseen _ _, fun h => ?_⟩, hseen⟩
  · simp only [out, Edit.apply, hpass, and_self]
  · obtain ⟨first, rest, hnew, hmark, hlength⟩ := newLines_eq_cons htext
    refine ⟨first, rest, hnew ▸ hlines, hmark, hlength, fun hcheck => ?_⟩
    rw [newLines_eq htext hcheck] at hnew
    exact (List.cons.inj hnew).1.symm
  · refine plan_eq_none_iff.mpr (isPresent_below h hone ?_)
    have habove : ((lines content).take v.row).length = v.row :=
      List.length_take_of_le (hrow ▸ Nat.le_of_lt hlt)
    rw [hlines, newLines_eq htext h.checkId, List.append_assoc,
      List.getElem?_append_right (Nat.le_of_eq habove), habove, Nat.sub_self]
    rfl

def blockTitleReport (message : Text) : Violation where
  file := "a.adoc"
  ruleName := "BlockTitle"
  line := 2
  column := 1
  message := message
  severity := .warning
  originalText := []
  suggestedText := none
  checkId := "Docs.BlockTitle"
  link := none

def blockTitlePayload (fields : List (Text × Json)) : Text :=
  let place : List (Text × Json) := [("Check", .string "Docs.BlockTitle"), ("Line", Json.nat 2),
    ("Column", Json.nat 1), ("Severity", .string "warning")]
  Json.compact (.object [("a.adoc", .array [.object (place ++ fields)])])

/-- The line break in the message does no harm. -/
theorem annotation_recognised_on_one_line :
    let payload := blockTitlePayload [("Message", .string "Title\nof a block")]
    let v := blockTitleReport "Title\nof a block"
    let content : Text := "= Title\n.Block\n"
    Payload.read ⟨"."⟩ payload = .ok [v] ∧ v.line ≤ (lines content).length ∧
      ∃ f, (flag "BlockTitle" []).plan v content = some f ∧
        (flag "BlockTitle" []).plan { v with line := 3 }
          (Edit.apply content [f]).content = none := by
  intro payload v content
  have hread : Payload.read ⟨"."⟩ payload = .ok [v] := by decide +kernel
  have hline : v.line ≤ (lines content).length := by decide +kernel
  obtain ⟨f, hf⟩ := Option.isSome_iff_exists.mp
    (show ((flag "BlockTitle" []).plan v content).isSome by decide +kernel)
  obtain ⟨-, -, hseen, -⟩ :=
    annotation_recognised_iff hread (List.mem_singleton.mpr rfl) hline hf
  exact ⟨hread, hline, f, hf, hseen.mpr ⟨by decide, by decide⟩⟩

/-- The comment of a report without a message is not seen again. -/
theorem annotation_repeated_without_message : ¬∀ (base : Path) (payload : Text)
    (vs : List Violation) (v : Violation) (name : Text) (dependencies : List Text) (content : Text)
    (f : Fix), Payload.read base payload = .ok vs → v ∈ vs → v.line ≤ (lines content).length →
    (flag name dependencies).plan v content = some f →
    (∃ line, lines (Edit.apply content [f]).content =
        (lines content).take v.row ++ [line] ++ (lines content).drop v.row ∧
      ("// docfix:" : Text) <+: line) ∧
    (flag name dependencies).plan { v with line := v.line + 1 }
      (Edit.apply content [f]).content = none := by
  intro h
  let v := blockTitleReport []
  let content : Text := "= Title\n.Block\n"
  obtain ⟨f, hf⟩ := Option.isSome_iff_exists.mp
    (show ((flag "BlockTitle" []).plan v content).isSome by decide +kernel)
  obtain ⟨-, hnone⟩ := h ⟨"."⟩ (blockTitlePayload []) [v] v "BlockTitle" [] content f
    (by decide +kernel) (List.mem_singleton.mpr rfl) (by decide +kernel) hf
  exact (isRecognisable_of_isPresent (plan_eq_none_iff.mp hnone)).message (by decide)

end Errata.Rule.Annotation
