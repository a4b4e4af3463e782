import Errata.Report
import Errata.Wire.Fix

/-!
# Reports in JSON
-/
namespace Errata

open Json

def Instant.toJson (t : Instant) : Json := .string t.text

def Instant.ofJson? (j : Json) : Option Instant := (text? j).bind Instant.read?

def PathSet.toJson (s : PathSet) : Json := .array (s.toList.map Path.toJson)

def PathSet.ofJson? (j : Json) : Option PathSet := (list? Path.ofJson? j).map PathSet.ofList

namespace Summary

def toJson (s : Summary) : Json :=
  record [
    ("violations", some (nat s.violations)),
    ("fixes_applied", some (nat s.applied)),
    ("fixes_skipped", some (nat s.skipped)),
    ("review_required", some (nat s.reviewRequired)),
    ("files_processed", some (nat s.processed)),
    ("files_modified", some (nat s.modified)),
    ("errors", some (nat s.errors))]

end Summary

namespace Report

def toJson (r : Report) : Json :=
  record [
    ("schema", some (.string r.schema)),
    ("violations", some (.array (r.violations.map Violation.toJson))),
    ("fixes_applied", some (.array (r.applied.map Fix.toJson))),
    ("fixes_skipped", some (.array (r.skipped.map Fix.toJson))),
    ("files_processed", some r.processed.toJson),
    ("files_modified", some r.modified.toJson),
    ("errors", some (.array (r.errors.map .string))),
    ("interrupted", some (.bool r.interrupted)),
    ("backup_dir", r.backupDir.map Path.toJson),
    ("started_at", some r.startedAt.toJson),
    ("ended_at", r.endedAt.map Instant.toJson)]

def ofJson? (j : Json) : Option Report := do
  match ← fields? ["schema", "violations", "fixes_applied", "fixes_skipped", "files_processed",
      "files_modified", "errors", "interrupted", "backup_dir", "started_at", "ended_at"] j with
  | [schema, violations, applied, skipped, processed, modified, errors, interrupted, backupDir,
      startedAt, endedAt] =>
    some {
      schema := ← required text? schema
      violations := ← required (list? Violation.ofJson?) violations
      applied := ← required (list? Fix.ofJson?) applied
      skipped := ← required (list? Fix.ofJson?) skipped
      processed := ← required PathSet.ofJson? processed
      modified := ← required PathSet.ofJson? modified
      errors := ← required (list? text?) errors
      interrupted := ← defaulting false bool? interrupted
      backupDir := ← optional Path.ofJson? backupDir
      startedAt := ← required Instant.ofJson? startedAt
      endedAt := ← optional Instant.ofJson? endedAt }
  | _ => none

end Report

end Errata
