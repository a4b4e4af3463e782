import Errata.Path.Basic

/-!
# Violations

A violation is one issue that the linter reports at a place in a file. Lines and columns count
from one, columns in characters.
-/
namespace Errata

inductive Severity where
  | error
  | warning
  | suggestion
  deriving DecidableEq, Repr

namespace Severity

def all : List Severity := [.error, .warning, .suggestion]

def rank : Severity → Nat
  | .error => 0
  | .warning => 1
  | .suggestion => 2

instance : LT Severity := ⟨fun a b => a.rank < b.rank⟩

instance : DecidableLT Severity := fun a b => inferInstanceAs (Decidable (a.rank < b.rank))

def name : Severity → Text
  | .error => "error"
  | .warning => "warning"
  | .suggestion => "suggestion"

/-- The level that a linter's severity stands for; a word that is not known is the lowest one. -/
def ofLinter (word : Text) : Severity :=
  let word := Text.lower (Text.trim word)
  if word = "error" ∨ word = "fatal" then .error
  else if word = "warning" ∨ word = "warn" then .warning
  else .suggestion

end Severity

/-- A single issue reported by the linter. -/
structure Violation where
  file : Path
  /-- The part of `checkId` behind its last dot. -/
  ruleName : Text
  line : Nat
  column : Nat
  message : Text
  severity : Severity
  /-- The text that the linter matched at the reported place. -/
  originalText : Text
  suggestedText : Option Text
  checkId : Text
  link : Option Text
  deriving DecidableEq, Repr

namespace Violation

/-- The line, counted from zero. -/
def row (v : Violation) : Nat := v.line - 1

def col (v : Violation) : Nat := v.column - 1

/-- The rule that a check is named after. -/
def ruleOfCheck (check : Text) : Text := Text.afterLast '.' check

end Violation

end Errata
