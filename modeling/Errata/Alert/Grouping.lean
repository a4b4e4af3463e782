import Errata.Keyed.Slots
import Errata.Violation

/-!
# Groups of violations

Violations are grouped by file or by rule. Groups come in the order in which their keys are first
met and keep the order of their members. Two spellings of a path are one key.
-/
namespace Errata.Group

variable {κ ι : Type} [DecidableEq ι] (ident : κ → ι)

/-- Adds a violation to the group of its key, or opens one under that key at the end. -/
def add (key : κ) (v : Violation) (groups : Slots ι (κ × List Violation)) :
    Slots ι (κ × List Violation) :=
  groups.alter (ident key) (fun g => (g.1, g.2 ++ [v])) (key, [v])

/-- The groups by a key, of which only `ident` counts when two are compared. -/
def slots (key : Violation → κ) (vs : List Violation) : Slots ι (κ × List Violation) :=
  vs.foldl (fun groups v => add ident (key v) v groups) ∅

/-- The violations with equal keys, together. -/
def collect (key : Violation → κ) (vs : List Violation) : List (κ × List Violation) :=
  (slots ident key vs).entries

def byRule (vs : List Violation) : List (Text × List Violation) := collect id (·.ruleName) vs

/-- The violations of each file, under the first spelling of its path. -/
def byFile (vs : List Violation) : List (Path × List Violation) :=
  collect Path.components (·.file) vs

def withSeverity (severities : List Severity) (vs : List Violation) : List Violation :=
  vs.filter fun v => severities.contains v.severity

end Errata.Group
