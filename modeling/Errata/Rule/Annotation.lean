import Errata.Rule.Basic
import Errata.Text.Lines

/-!
# Annotations

What needs an author's judgement is not changed but marked by a comment line above it, once.
-/
namespace Errata.Rule

namespace Annotation

/-- The comment that marks a violation; line breaks in the message become blanks. -/
def text (v : Violation) : Text :=
  let message := v.message.map fun c => if c = '\r' ∨ c = '\n' then ' ' else c
  "// docfix: " ++ v.checkId ++ " [" ++ v.severity.name ++ "] " ++ Text.trim message

/-- The line above the violation is its comment already. -/
def isPresent (v : Violation) (content : Text) : Bool :=
  0 < v.row &&
    ((Text.lines content)[v.row - 1]?).any fun above => Text.trim above == text v

def plan (name : Text) (v : Violation) (content : Text) : Option Fix :=
  if isPresent v content then none
  else some <| ((Fix.new v (text v) .insertAbove .never).setReview true).setDescription
    ("Flag " ++ name ++ " for manual review")

end Annotation

/-- The rule that only marks the violations of a check. -/
def flag (name : Text) (dependencies : List Text) : Rule where
  name := name
  determinism := .never
  dependencies := dependencies
  accepts v := v.ruleName == name
  plan := Annotation.plan name

end Errata.Rule
