import Errata.Edit
import Errata.File.Backups
import Errata.File.Document
import Errata.Report
import Errata.Run.Plan

/-!
# Working on a file

The violations of one file are one unit of work. A unit first reads its file and plans, which
touches nothing but the cache and the interrupt flag; it then makes the fixes and records them. An
interrupt that is seen between the two drops the unit without a trace.
-/
namespace Errata

structure FileUnit where
  file : Path
  violations : List Violation

inductive Completion where
  | done
  | failed
  | interrupted
  deriving DecidableEq, Repr

/-- What the units of a run share. -/
structure Work where
  tree : FileTree
  cache : Cache
  backups : Backups
  report : Report
  /-- Somebody asked the run to stop. -/
  interrupt : Bool

structure Prepared where
  document : Document
  fixes : List Fix

namespace Work

def addError (w : Work) (e : Text) : Work :=
  { w with report := { w.report with errors := w.report.errors ++ [e] } }

def addFileError (w : Work) (p : Path) (e : DocumentError) : Work :=
  w.addError (p.text ++ ": " ++ e.message)

def addSkipped (w : Work) (fixes : List Fix) : Work :=
  { w with report := { w.report with skipped := w.report.skipped ++ fixes } }

def addApplied (w : Work) (fixes : List Fix) : Work :=
  { w with report := { w.report with applied := w.report.applied ++ fixes } }

def addProcessed (w : Work) (p : Path) : Work :=
  { w with report := { w.report with processed := w.report.processed.insert p } }

def addModified (w : Work) (p : Path) : Work :=
  { w with report := { w.report with modified := w.report.modified.insert p } }

/-- Reads the document in a file; none if that is not possible. -/
def load (w : Work) (file : Path) : Option Document × Work :=
  match w.cache.read w.tree file with
  | (.error e, cache) => (none, { w with cache := cache }.addFileError file e)
  | (.ok d, cache) => (some d, { w with cache := cache })

def plan (w : Work) (planner : Planner) (u : FileUnit) (d : Document) : Prepared × Work :=
  (⟨d, planner.fixes u.violations d.text⟩,
    { w with interrupt := w.interrupt || planner.interrupts u.violations })

/-- Reads the file of a unit and plans its fixes; none if the file cannot be read. -/
def prepare (w : Work) (planner : Planner) (u : FileUnit) : Option Prepared × Work :=
  match w.load u.file with
  | (none, w) => (none, w)
  | (some d, w) => ((w.plan planner u d).1, (w.plan planner u d).2)

/-- Copies the file of a unit aside. A copy that fails does not stop the unit. -/
def backUp (w : Work) (p : Path) : Work :=
  match w.backups.backup w.tree p with
  | (_, backups, tree) => { w with backups := backups, tree := tree }

/-- Makes the fixes of a unit, writes the file if that changes it, and records what became of
them. -/
def rewrite (w : Work) (file : Path) (x : Prepared) : Completion × Work :=
  let outcome := Edit.apply x.document.text x.fixes
  let w := w.addSkipped outcome.skipped
  if outcome.content = x.document.text then (.done, w.addApplied outcome.applied)
  else match Document.write w.tree file outcome.content x.document.encoding with
    | .ok tree => (.done, ({ w with tree := tree }.addModified file).addApplied outcome.applied)
    | .error e => (.failed, (w.addFileError file e).addSkipped outcome.applied)

/-- Records a file, and makes its fixes unless the run is dry or there are none. -/
def record (w : Work) (dryRun : Bool) (file : Path) (x : Prepared) : Completion × Work :=
  let w := w.addProcessed file
  if dryRun || x.fixes.isEmpty then (.done, w.addSkipped x.fixes)
  else (w.backUp file).rewrite file x

/-- Looks at the interrupt a last time before the fixes of a unit are made. -/
def commit (w : Work) (dryRun : Bool) (file : Path) (x : Prepared) : Completion × Work :=
  if w.interrupt then (.interrupted, w) else w.record dryRun file x

def complete (w : Work) (planner : Planner) (dryRun : Bool) (u : FileUnit) : Completion × Work :=
  match w.prepare planner u with
  | (none, w) => (.failed, w)
  | (some x, w) => w.commit dryRun u.file x

end Work

end Errata
