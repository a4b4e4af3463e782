import Errata.Fix
import Errata.Instant
import Errata.Keyed.Sorted
import Errata.Path.Set

/-!
# Reports

The outcome of one run. An interrupted run still gives a report, of what it has done so far.
-/
namespace Errata

structure Report where
  schema : Text
  violations : List Violation
  applied : List Fix
  /-- Planned and not written: the run was dry, or the text to change was not found. -/
  skipped : List Fix
  processed : PathSet
  modified : PathSet
  errors : List Text
  interrupted : Bool
  /-- Where files were copied to before they were changed, once one was. -/
  backupDir : Option Path
  startedAt : Instant
  endedAt : Option Instant

/-- The numbers of a report. -/
structure Summary where
  violations : Nat
  applied : Nat
  skipped : Nat
  reviewRequired : Nat
  processed : Nat
  modified : Nat
  errors : Nat
  deriving DecidableEq, Repr

namespace Report

def start (now : Instant) : Report where
  schema := "docfix.result.v1"
  violations := []
  applied := []
  skipped := []
  processed := ∅
  modified := ∅
  errors := []
  interrupted := false
  backupDir := none
  startedAt := now
  endedAt := none

def hasFailed (r : Report) : Bool := !r.errors.isEmpty

/-- Every fix that the run planned and recorded. -/
def fixes (r : Report) : List Fix := r.applied ++ r.skipped

def summary (r : Report) : Summary where
  violations := r.violations.length
  applied := r.applied.length
  skipped := r.skipped.length
  reviewRequired := (r.fixes.filter (·.requiresReview)).length
  processed := r.processed.size
  modified := r.modified.size
  errors := r.errors.length

/-- How many fixes there are of each class, classes without any left out. -/
def countByDeterminism (r : Report) : List (Determinism × Nat) :=
  Sorted.countBy (·.determinism) r.fixes

end Report

/-- Why a run does not count as a success. -/
inductive Failure where
  | interrupted
  | failed (count : Nat)
  /-- A fault with the contexts it was met in, the outermost one first. -/
  | internal (chain : List Text)
  deriving DecidableEq, Repr

namespace Failure

def message : Failure → Text
  | .interrupted => "interrupted before all files were processed"
  | .failed count => Text.ofNat count ++ " error(s) while processing files"
  | .internal chain => List.intercalate [':', ' '] chain

/-- The exit code of the process: that of an interrupt, or one. -/
def exitCode : Failure → Nat
  | .interrupted => 130
  | .failed _ | .internal _ => 1

end Failure

/-- Errors weigh more than an interrupt. -/
def Report.verdict (r : Report) : Except Failure Unit :=
  if r.hasFailed then .error (.failed r.errors.length)
  else if r.interrupted then .error .interrupted
  else .ok ()

end Errata
