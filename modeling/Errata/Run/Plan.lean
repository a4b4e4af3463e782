import Errata.Rule.Registry

/-!
# Planning the fixes of a file

Every rule is asked about the violations of its own name, in the running order of the rules.
Violations of a name that no rule has are then offered to the rule that volunteers for them. With a
rule selected, only that rule is asked, and about nothing else.
-/
namespace Errata

structure Planner where
  registry : Registry
  /-- The rules in the order in which they are asked. -/
  rules : List Rule
  /-- Violations of unknown names are offered around. -/
  fallback : Bool

namespace Planner

def new (registry : Registry) (selected : Option Text) : Planner where
  registry := registry
  rules := registry.runningOrder.filter fun r => selected.all (r.name == ·)
  fallback := selected.isNone

/-- The questions that are asked about some violations, in their order. -/
def questions (p : Planner) (vs : List Violation) : List (Rule × Violation) :=
  (p.rules.flatMap fun r => (vs.filter (·.ruleName == r.name)).map fun v => (r, v)) ++
  if p.fallback then
    (vs.filter fun v => (p.registry.rule? v.ruleName).isNone).filterMap fun v =>
      (p.registry.ruleFor? v).map fun r => (r, v)
  else []

def fixes (p : Planner) (vs : List Violation) (content : Text) : List Fix :=
  (p.questions vs).filterMap fun q => q.1.plan q.2 content

/-- Planning for these violations asks the run to stop. -/
def interrupts (p : Planner) (vs : List Violation) : Bool :=
  (p.questions vs).any fun q => q.1.interrupts q.2

end Planner

end Errata
