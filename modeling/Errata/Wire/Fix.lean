import Errata.Fix
import Errata.Json.Record

/-!
# Violations and fixes in JSON

Each type has a writer and a reader. Optional fields without a value are left out, and read back as
absent; a text that is there is written even if it is empty.
-/
namespace Errata

open Json

def Path.ofJson? (j : Json) : Option Path := (text? j).map Path.mk

def Path.toJson (p : Path) : Json := .string p.text

namespace Severity

def toJson (s : Severity) : Json := .string s.name

def ofJson? : Json → Option Severity := choice? all name

end Severity

namespace Determinism

def toJson (d : Determinism) : Json := .string d.name

def ofJson? : Json → Option Determinism := choice? all name

end Determinism

namespace Violation

def toJson (v : Violation) : Json :=
  record [
    ("file", some v.file.toJson),
    ("rule_name", some (.string v.ruleName)),
    ("line", some (nat v.line)),
    ("column", some (nat v.column)),
    ("message", some (.string v.message)),
    ("severity", some v.severity.toJson),
    ("original_text", some (.string v.originalText)),
    ("suggested_text", v.suggestedText.map .string),
    ("check_id", some (.string v.checkId)),
    ("link", v.link.map .string)]

def ofJson? (j : Json) : Option Violation := do
  match ← fields? ["file", "rule_name", "line", "column", "message", "severity", "original_text",
      "suggested_text", "check_id", "link"] j with
  | [file, ruleName, line, column, message, severity, originalText, suggestedText, checkId, link] =>
    some {
      file := ← required Path.ofJson? file
      ruleName := ← required text? ruleName
      line := ← required nat? line
      column := ← required nat? column
      message := ← required text? message
      severity := ← required Severity.ofJson? severity
      originalText := ← required text? originalText
      suggestedText := ← optional text? suggestedText
      checkId := ← required text? checkId
      link := ← optional text? link }
  | _ => none

end Violation

namespace Placement

def tag : Placement → Text
  | .atMatch => "replace_at_position"
  | .replaceLine _ => "replace_line"
  | .insertLine _ => "insert_at_line"
  | .insertAbove => "insert_comment_above"

def line? : Placement → Option Nat
  | .replaceLine line | .insertLine line => some line
  | .atMatch | .insertAbove => none

def toJson (p : Placement) : Json :=
  record [("type", some (.string p.tag)), ("line", p.line?.map nat)]

/-- The placement with a tag whose line, where it has one, is read by `line`. -/
def ofTag? (tag : Text) (line : Option Nat) (noLine : Option Unit) : Option Placement :=
  if tag = "replace_at_position" then noLine.map fun _ => .atMatch
  else if tag = "insert_comment_above" then noLine.map fun _ => .insertAbove
  else if tag = "replace_line" then line.map .replaceLine
  else if tag = "insert_at_line" then line.map .insertLine
  else none

/-- Reads an object with its tag under `type`, or a list that starts with the tag. As the tag may
come last, no member is ignored before all have been read: all of them have to be sound. -/
def ofJson? : Json → Option Placement
  | .object members => do
    guard (haveSound members)
    let valuesOf (name : Text) : List Json := (members.filter fun m => m.1 == name).map (·.2)
    match valuesOf "type" with
    | [.string tag] =>
      let line := match valuesOf "line" with
        | [j] => nat? j
        | _ => none
      ofTag? tag line (some ())
    | _ => none
  | .array (.string tag :: rest) =>
    let line := match rest with
      | [j] => nat? j
      | _ => none
    ofTag? tag line (if rest.isEmpty then some () else none)
  | _ => none

end Placement

namespace Fix

def toJson (f : Fix) : Json :=
  record [
    ("violation", some f.violation.toJson),
    ("replacement", some (.string f.replacement)),
    ("confidence", some (.number (.double f.confidence))),
    ("requires_review", some (.bool f.requiresReview)),
    ("description", f.description.map .string),
    ("target", f.target.map .string),
    ("strategy", some f.placement.toJson),
    ("fix_type", some f.determinism.toJson)]

def ofJson? (j : Json) : Option Fix := do
  match ← fields? ["violation", "replacement", "confidence", "requires_review", "description",
      "target", "strategy", "fix_type"] j with
  | [violation, replacement, confidence, requiresReview, description, target, placement,
      determinism] =>
    some {
      violation := ← required Violation.ofJson? violation
      replacement := ← required text? replacement
      confidence := ← required double? confidence
      requiresReview := ← required bool? requiresReview
      description := ← optional text? description
      target := ← optional text? target
      placement := ← required Placement.ofJson? placement
      determinism := ← required Determinism.ofJson? determinism }
  | _ => none

end Fix

end Errata
