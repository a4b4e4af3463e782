import Errata.Keyed.Slots
import Errata.Keyed.Sorted
import Errata.Rule.Basic
import Errata.Text.Quoted

/-!
# Registries

A registry holds rules by name, in the order in which the names first came. A rule under a name that
is taken replaces the one that had it, in its place. The running order puts the dependencies of a
rule before it; where dependencies go round in a circle, the first one met again is left alone.
-/
namespace Errata

/-- Rules in their slots, found by name. -/
structure Registry where
  slots : Slots Text Rule
  inStep : slots.InStep (·.name)

namespace Registry

def empty : Registry := ⟨∅, .empty⟩

instance : EmptyCollection Registry := ⟨empty⟩

instance : Inhabited Registry := ⟨empty⟩

def rules (r : Registry) : List Rule := r.slots.entries

def names (r : Registry) : List Text := r.rules.map (·.name)

def size (r : Registry) : Nat := r.rules.length

def register (r : Registry) (rule : Rule) : Registry where
  slots := r.slots.alter rule.name (fun _ => rule) rule
  inStep := r.inStep.alter (fun _ _ => rfl) rfl

def ofList (rules : List Rule) : Registry := rules.foldl register ∅

def rule? (r : Registry) (name : Text) : Option Rule := r.slots.get? name

/-- The rule that is responsible for a violation: the one of its own name if it accepts it, else the
first one that does. -/
def ruleFor? (r : Registry) (v : Violation) : Option Rule :=
  ((r.rule? v.ruleName).filter (·.accepts v)).or (r.rules.find? (·.accepts v))

structure Walk where
  visited : List Text
  ordered : List Rule

/-- Visits the dependencies of a rule and then the rule itself, unless it has been visited. `fuel`
bounds the depth: each level visits one more rule. -/
def visit (r : Registry) : Nat → Walk → Rule → Walk
  | 0, w, _ => w
  | fuel + 1, w, rule =>
    if rule.name ∈ w.visited then w
    else
      let inner := (rule.dependencies.filterMap r.rule?).foldl (visit r fuel)
        { w with visited := rule.name :: w.visited }
      { inner with ordered := inner.ordered ++ [rule] }

/-- The rules, each after those it depends on. -/
def runningOrder (r : Registry) : List Rule :=
  (r.rules.foldl (visit r (r.size + 1)) ⟨[], []⟩).ordered

/-- The names of the rules of each class, classes without any left out. -/
def byDeterminism (r : Registry) : List (Determinism × List Text) :=
  Sorted.collectBy (·.determinism) (·.name) r.rules

def describe (r : Registry) : Text :=
  "RuleRegistry \x7b rules: [" ++ List.intercalate [',', ' '] (r.names.map Text.quote) ++ "] \x7d"

end Registry

end Errata
