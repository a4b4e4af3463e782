import Errata.Alert.Tally
import Errata.Report
import Errata.Rule.Registry
import Errata.Wire.Report

/-!
# What the commands print
-/
namespace Errata

def Fix.line (verb : Text) (f : Fix) : Text :=
  let v := f.violation
  let review : Text := if f.requiresReview then " (review)" else []
  v.file.text ++ ":" ++ Text.ofNat v.line ++ ":" ++ Text.ofNat v.column ++ ": " ++ verb ++ " " ++
    v.ruleName ++ review ++ ": " ++ f.description.getD f.replacement

namespace Report

def summaryLine (r : Report) : Text :=
  let s := r.summary
  Text.ofNat s.violations ++ " violation(s) in " ++ Text.ofNat s.processed ++ " file(s); " ++
    Text.ofNat s.applied ++ " fix(es) applied, " ++ Text.ofNat s.skipped ++ " skipped, " ++
    Text.ofNat s.reviewRequired ++ " need review; " ++ Text.ofNat s.modified ++ " file(s) modified"

/-- The rules with the most violations, in one line; none if there are no violations. -/
def commonLine (r : Report) : List Text :=
  match (Tally.ofViolations r.violations).mostCommon 5 with
  | [] => []
  | top =>
    ["Most common: " ++ List.intercalate [',', ' ']
      (top.map fun c => c.1 ++ " (" ++ Text.ofNat c.2 ++ ")")]

/-- The lines of a report: the fixes, the numbers, and what went wrong. -/
def lines (dryRun : Bool) (r : Report) : List Text :=
  (if dryRun then r.skipped.map (Fix.line "would fix")
    else r.applied.map (Fix.line "fixed") ++ r.skipped.map (Fix.line "skipped")) ++
  [[], r.summaryLine] ++
  (r.countByDeterminism.map fun c => "  " ++ Text.padRight 24 c.1.name ++ " " ++ Text.ofNat c.2) ++
  r.commonLine ++
  (r.backupDir.toList.map fun dir => ("Backups: " : Text) ++ dir.text) ++
  (if r.interrupted then [("Interrupted: some files were not processed." : Text)] else []) ++
  r.errors.map fun e => ("error: " : Text) ++ e

end Report

namespace Rule

def row (name determinism dependencies : Text) : Text :=
  "  " ++ Text.padRight 18 name ++ " " ++ Text.padRight 24 determinism ++ " " ++ dependencies

def table (rules : List Rule) : List Text :=
  [("Rules in run order:" : Text), [], row "NAME" "FIX TYPE" "DEPENDS ON",
    row "----" "--------" "----------"] ++
  rules.map fun r => row r.name r.determinism.name (List.intercalate [',', ' '] r.dependencies)

def toJson (r : Rule) : Json :=
  .object [
    ("name", .string r.name),
    ("fix_type", r.determinism.toJson),
    ("automatic", .bool r.determinism.automatic),
    ("dependencies", .array (r.dependencies.map .string))]

end Rule

end Errata
