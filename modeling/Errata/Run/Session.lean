import Errata.Alert.Grouping
import Errata.Alert.Payload
import Errata.Linter.Output
import Errata.Run.Pool

/-!
# Runs

A run takes the linter's payload, plans and makes the fixes file by file, and gives a report. The
documents that one run has read serve the later runs of the same session. Nothing makes a run fail:
what goes wrong is in its report.
-/
namespace Errata

/-- What successive runs share. -/
structure Session where
  registry : Registry
  settings : Settings
  cache : Cache
  interrupt : Bool

/-- What is asked of one run. -/
structure Request where
  dryRun : Bool
  /-- Only this rule runs, and only its violations are reported. -/
  selected : Option Text
  startedAt : Instant
  endedAt : Instant

namespace Session

def new (registry : Registry) (settings : Settings) : Session where
  registry := registry
  settings := settings
  cache := Cache.new settings.maxFileBytes
  interrupt := false

/-- The violations in what the linter gave, or the text of what went wrong. -/
def violations (s : Session) (payload : Except LintError Text) : Except Text (List Violation) :=
  match payload with
  | .error e => .error (List.intercalate [':', ' '] ("run linter" :: e.chain))
  | .ok text =>
    match Payload.read s.settings.workingDir text with
    | .error e => .error ("parse linter output: " ++ e.message)
    | .ok vs => .ok vs

/-- The units of a run over some violations, one for each file. -/
def units (vs : List Violation) : List FileUnit := (Group.byFile vs).map fun g => ⟨g.1, g.2⟩

/-- What the units of a run over some violations share at its start. -/
def work (s : Session) (tree : FileTree) (q : Request) (vs : List Violation) : Work where
  tree := tree
  cache := s.cache
  backups := Backups.new s.settings.workingDir s.settings.backupRoot
  report := { Report.start q.startedAt with violations := vs }
  interrupt := s.interrupt

def pool (s : Session) (tree : FileTree) (q : Request) (vs : List Violation) : Pool :=
  Pool.fill (units vs) (s.settings.workersFor (units vs).length) (s.work tree q vs)

/-- The violations that a run is about. -/
def relevant (q : Request) (vs : List Violation) : List Violation :=
  match q.selected with
  | some name => vs.filter (·.ruleName == name)
  | none => vs

/-- The outcome of a run whose linter gave nothing that can be used. -/
def refuse (s : Session) (tree : FileTree) (q : Request) (e : Text) : Report × Session × FileTree :=
  ({ Report.start q.startedAt with errors := [e], endedAt := some q.endedAt }, s, tree)

/-- The outcome of a run whose units have come to an end. -/
def conclude (s : Session) (q : Request) (w : Work) (cutShort : Bool) :
    Report × Session × FileTree :=
  ({ w.report with
      interrupted := cutShort
      backupDir := w.backups.dir
      endedAt := some q.endedAt },
    { s with cache := w.cache, interrupt := w.interrupt },
    w.tree)

/-- One run: its report, the session and the files after it. -/
def run (s : Session) (tree : FileTree) (payload : Except LintError Text) (q : Request) :
    Report × Session × FileTree :=
  match s.violations payload with
  | .error e => s.refuse tree q e
  | .ok vs =>
    let p := (s.pool tree q (relevant q vs)).drain (Planner.new s.registry q.selected) q.dryRun
    s.conclude q p.work p.isCutShort

end Session

end Errata
