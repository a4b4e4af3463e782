import Errata.Keyed.Sorted
import Errata.Path.Set
import Errata.Violation

/-!
# Tallies

How many violations there are, by severity, by rule and by file.
-/
namespace Errata

structure Tally where
  total : Nat
  /-- By falling severity, severities without any left out. -/
  bySeverity : List (Severity × Nat)
  /-- By the name of the rule. -/
  byRule : List (Text × Nat)
  files : Nat
  deriving DecidableEq, Repr

namespace Tally

def ofViolations (vs : List Violation) : Tally where
  total := vs.length
  bySeverity := Sorted.countBy (·.severity) vs
  byRule := Sorted.countBy (·.ruleName) vs
  files := (PathSet.ofList (vs.map (·.file))).size

def count (s : Tally) (severity : Severity) : Nat :=
  (s.bySeverity.lookup severity).getD 0

/-- A rule with more violations comes first, and of two with as many the one of the lesser name. -/
def ranksBefore (a b : Text × Nat) : Bool :=
  if a.2 = b.2 then !decide (b.1 < a.1) else b.2 < a.2

def mostCommon (s : Tally) (n : Nat) : List (Text × Nat) := (s.byRule.mergeSort ranksBefore).take n

end Tally

end Errata
