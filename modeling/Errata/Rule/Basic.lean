import Errata.Fix

/-!
# Rules

A rule plans the fixes for the violations of one check. Planning reads the content of the file and
changes nothing.
-/
namespace Errata

structure Rule where
  /-- The name of the check that the rule is for. -/
  name : Text
  determinism : Determinism
  /-- The rules that should run before this one. -/
  dependencies : List Text
  accepts : Violation → Bool
  /-- The fix for a violation in a file with this content. -/
  plan : Violation → Text → Option Fix
  /-- Planning for this violation asks the run to stop. -/
  interrupts : Violation → Bool := fun _ => false

end Errata
