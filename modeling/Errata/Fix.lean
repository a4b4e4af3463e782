import Errata.Violation

/-!
# Fixes

A fix is a text change that is planned for one violation and not yet made.
-/
namespace Errata

/-- How far the fixes of a rule can be trusted to be the right ones. -/
inductive Determinism where
  /-- A fixed substitution. -/
  | fully
  /-- Inferred from the context, possibly a placeholder. -/
  | partially
  /-- Only flagged: an author has to decide. -/
  | never
  deriving DecidableEq, Repr

namespace Determinism

def all : List Determinism := [.fully, .partially, .never]

def rank : Determinism → Nat
  | .fully => 0
  | .partially => 1
  | .never => 2

instance : LT Determinism := ⟨fun a b => a.rank < b.rank⟩

instance : DecidableLT Determinism := fun a b => inferInstanceAs (Decidable (a.rank < b.rank))

def name : Determinism → Text
  | .fully => "fully_deterministic"
  | .partially => "partially_deterministic"
  | .never => "non_deterministic"

def automatic (d : Determinism) : Bool := d == .fully

end Determinism

/-- Where a fix lands. Lines count from zero, in the content that the fix was planned for. -/
inductive Placement where
  /-- In place of the matched text, near the reported column. -/
  | atMatch
  /-- In place of a whole line. -/
  | replaceLine (line : Nat)
  /-- As new lines before a line. -/
  | insertLine (line : Nat)
  /-- As new lines above the reported line. -/
  | insertAbove
  deriving DecidableEq, Repr

namespace Placement

def inserts : Placement → Bool
  | .insertLine _ | .insertAbove => true
  | .atMatch | .replaceLine _ => false

end Placement

structure Fix where
  violation : Violation
  replacement : Text
  /-- Between zero and one where the library has set it. -/
  confidence : Float
  requiresReview : Bool
  description : Option Text
  /-- The text that `Placement.atMatch` removes, where it is not the one the linter matched. -/
  target : Option Text
  placement : Placement
  determinism : Determinism

namespace Fix

/-- A fix of full confidence that needs no review. -/
def new (violation : Violation) (replacement : Text) (placement : Placement)
    (determinism : Determinism) : Fix where
  violation := violation
  replacement := replacement
  confidence := 1
  requiresReview := false
  description := none
  target := none
  placement := placement
  determinism := determinism

/-- Confidence lies between zero and one; what is no number counts as none. -/
def setConfidence (f : Fix) (x : Float) : Fix :=
  { f with confidence := if x.isNaN then 0 else if x < 0 then 0 else if 1 < x then 1 else x }

def setReview (f : Fix) (b : Bool) : Fix := { f with requiresReview := b }

def setDescription (f : Fix) (t : Text) : Fix := { f with description := some t }

def setTarget (f : Fix) (t : Text) : Fix := { f with target := some t }

/-- The text that `Placement.atMatch` looks for. -/
def needle (f : Fix) : Text := f.target.getD f.violation.originalText

/-- The line at which the fix acts. -/
def row (f : Fix) : Nat :=
  match f.placement with
  | .replaceLine line | .insertLine line => line
  | .atMatch | .insertAbove => f.violation.row

end Fix

end Errata
