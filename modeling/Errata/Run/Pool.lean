import Errata.Run.Settings
import Errata.Run.Work

/-!
# The pool

A bounded number of units is under way at the same time. Units start in the order of their files:
first as many as there are workers, then one for each that ends, and none any more once an interrupt
is seen.
-/
namespace Errata

structure Pool where
  /-- Not started yet. -/
  waiting : List FileUnit
  /-- Under way, the oldest first. -/
  running : List FileUnit
  work : Work
  /-- A unit was dropped by an interrupt. -/
  cutShort : Bool

namespace Pool

/-- Starts the next unit, unless there is none or an interrupt is seen. -/
def start (p : Pool) : Pool :=
  match p.waiting with
  | u :: us =>
    if p.work.interrupt then p else { p with waiting := us, running := p.running ++ [u] }
  | [] => p

/-- The pool with its first units under way. -/
def fill (units : List FileUnit) (workers : Nat) (work : Work) : Pool :=
  Nat.repeat start workers ⟨units, [], work, false⟩

/-- Completes the oldest unit under way and starts another one in its place. -/
def step (planner : Planner) (dryRun : Bool) (p : Pool) (u : FileUnit) (us : List FileUnit) :
    Pool :=
  let (status, work) := p.work.complete planner dryRun u
  start { p with
    running := us
    work := work
    cutShort := p.cutShort || status == .interrupted }

theorem load_step (planner : Planner) (dryRun : Bool) (p : Pool) (u : FileUnit)
    (us : List FileUnit) :
    (p.step planner dryRun u us).waiting.length + (p.step planner dryRun u us).running.length =
      p.waiting.length + us.length := by
  simp only [step, start]
  split
  · split
    · simp_all
    · simp_all
      omega
  · simp_all

/-- Completes units until none is under way. -/
def drain (planner : Planner) (dryRun : Bool) (p : Pool) : Pool :=
  match h : p.running with
  | [] => p
  | u :: us =>
    have : (p.step planner dryRun u us).waiting.length +
        (p.step planner dryRun u us).running.length < p.waiting.length + p.running.length := by
      rw [load_step, h]
      simp
    drain planner dryRun (p.step planner dryRun u us)
termination_by p.waiting.length + p.running.length

/-- Some unit was dropped or never started. -/
def isCutShort (p : Pool) : Bool := p.cutShort || !p.waiting.isEmpty

end Pool

end Errata
