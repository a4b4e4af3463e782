import Errata.Proofs.Run.Stages
import Errata.Run.Session
import Mathlib.Logic.Relation

/-!
# Runs under any schedule

`Pool` completes its units one after the other. A crew is the same pool with the units that are
under way interleaved in any order: a step starts a unit, takes one of them a stage further, notices
that one has ended, or sets the interrupt from outside. A unit that has copied its file holds the
report and the backups until it has rewritten the file, so no other one may record anything then.
-/
namespace Errata

structure Task where
  unit : FileUnit
  stage : Stage

namespace Stage

/-- The next step records something. -/
def records : Stage → Bool
  | .refused _ | .cleared _ => true
  | _ => false

/-- Nobody else may record anything. -/
def holds : Stage → Bool
  | .copied _ => true
  | _ => false

def isEnded : Stage → Bool
  | .ended _ => true
  | _ => false

def isInterrupted : Stage → Bool
  | .ended .interrupted => true
  | _ => false

end Stage

structure Crew where
  /-- Not started yet. -/
  waiting : List FileUnit
  running : List Task
  /-- Seen to have ended. -/
  joined : List Task
  /-- How many more starts are to be tried before a unit is seen to have ended. -/
  slots : ℕ
  work : Work
  journal : Journal

namespace Crew

def isOver (c : Crew) : Bool := c.slots == 0 && c.running.isEmpty

/-- Some unit was dropped or never started. -/
def isCutShort (c : Crew) : Bool :=
  c.joined.any (·.stage.isInterrupted) || !c.waiting.isEmpty

/-- A crew after a step of one of its tasks. -/
def advanced (c : Crew) (before : List Task) (u : FileUnit) (after : List Task) (a : Advance) :
    Crew :=
  { c with
    running := before ++ ⟨u, a.stage⟩ :: after
    work := a.work
    journal := c.journal ++ a.events.map (u.file, ·) }

inductive Step (planner : Planner) (dryRun : Bool) : Crew → Crew → Prop
  | interrupt (c : Crew) :
      Step planner dryRun c { c with work := { c.work with interrupt := true } }
  | start {c : Crew} {n : ℕ} {u : FileUnit} {us : List FileUnit} (hslots : c.slots = n + 1)
      (hclear : c.work.interrupt = false) (hwaiting : c.waiting = u :: us) :
      Step planner dryRun c
        { c with slots := n, waiting := us, running := c.running ++ [⟨u, .begun⟩] }
  | skip {c : Crew} {n : ℕ} (hslots : c.slots = n + 1)
      (hnone : c.work.interrupt ∨ c.waiting = []) :
      Step planner dryRun c { c with slots := n }
  | advance {c : Crew} {before after : List Task} {u : FileUnit} {st : Stage} {a : Advance}
      (hrunning : c.running = before ++ ⟨u, st⟩ :: after)
      (hfree : st.records → ∀ t ∈ before ++ after, t.stage.holds = false)
      (hstep : c.work.advance planner dryRun u st = some a) :
      Step planner dryRun c (c.advanced before u after a)
  | join {c : Crew} {before after : List Task} {t : Task} (hslots : c.slots = 0)
      (hrunning : c.running = before ++ t :: after) (hended : t.stage.isEnded) :
      Step planner dryRun c
        { c with running := before ++ after, joined := c.joined ++ [t], slots := 1 }

def Reaches (planner : Planner) (dryRun : Bool) : Crew → Crew → Prop :=
  Relation.ReflTransGen (Step planner dryRun)

end Crew

namespace Session

def crew (s : Session) (tree : FileTree) (q : Request) (vs : List Violation) : Crew where
  waiting := units vs
  running := []
  joined := []
  slots := s.settings.workersFor (units vs).length
  work := s.work tree q vs
  journal := []

/-- The outcomes that a run can have, with what its units do, under all schedules. -/
inductive Runs (s : Session) (tree : FileTree) (payload : Except LintError Text) (q : Request) :
    Report × Session × FileTree → Journal → Prop
  | refused {e : Text} (h : s.violations payload = .error e) :
      Runs s tree payload q (s.refuse tree q e) []
  | completed {vs : List Violation} {c : Crew} (h : s.violations payload = .ok vs)
      (hreach : Crew.Reaches (Planner.new s.registry q.selected) q.dryRun
        (s.crew tree q (relevant q vs)) c)
      (hover : c.isOver) :
      Runs s tree payload q (s.conclude q c.work c.isCutShort) c.journal

end Session

namespace Crew

variable (planner : Planner) (dryRun : Bool)

/-- The next step when units go on one after the other and nobody interrupts from outside. -/
def next (c : Crew) : Option Crew :=
  match c.slots, c.waiting, c.running with
  | n + 1, u :: us, _ =>
    if c.work.interrupt then some { c with slots := n }
    else some { c with slots := n, waiting := us, running := c.running ++ [⟨u, .begun⟩] }
  | n + 1, [], _ => some { c with slots := n }
  | 0, _, [] => none
  | 0, _, t :: ts =>
    match c.work.advance planner dryRun t.unit t.stage with
    | some a =>
      if ts.all (!·.stage.holds) then some (c.advanced [] t.unit ts a) else none
    | none =>
      if t.stage.isEnded then some { c with running := ts, joined := c.joined ++ [t], slots := 1 }
      else none

def proceed : ℕ → Crew → Crew
  | 0, c => c
  | n + 1, c => match c.next planner dryRun with
    | some c' => proceed n c'
    | none => c

variable {planner : Planner} {dryRun : Bool}

theorem step_of_next {c c' : Crew} (h : c.next planner dryRun = some c') :
    Step planner dryRun c c' := by
  unfold next at h
  split at h
  · next hslots hwaiting =>
    split at h
    · next hi =>
      obtain rfl := Option.some.inj h
      exact .skip hslots (.inl hi)
    · next hi =>
      obtain rfl := Option.some.inj h
      exact .start hslots (by simpa using hi) hwaiting
  · next hslots hwaiting =>
    obtain rfl := Option.some.inj h
    exact .skip hslots (.inr hwaiting)
  · cases h
  · next t ts hslots hrunning =>
    split at h
    · next a ha =>
      split at h
      · next hfree =>
        obtain rfl := Option.some.inj h
        exact .advance hrunning (fun _ => by simpa using hfree) ha
      · cases h
    · split at h
      · next hended =>
        obtain rfl := Option.some.inj h
        exact .join hslots (hrunning.trans (List.nil_append _).symm) hended
      · cases h

theorem reaches_proceed (n : ℕ) (c : Crew) :
    Reaches planner dryRun c (c.proceed planner dryRun n) := by
  induction n generalizing c with
  | zero => exact .refl
  | succ n ih =>
    rw [proceed]
    split
    · next h => exact .head (step_of_next h) (ih _)
    · exact .refl

end Crew

namespace Session

def served (s : Session) (tree : FileTree) (payload : Except LintError Text) (q : Request)
    (n : ℕ) : Crew :=
  let vs := ((s.violations payload).toOption).getD []
  (s.crew tree q (relevant q vs)).proceed (Planner.new s.registry q.selected) q.dryRun n

theorem runs_served {s : Session} {tree : FileTree} {payload : Except LintError Text} {q : Request}
    {n : ℕ} (hok : (s.violations payload).isOk) (hover : (s.served tree payload q n).isOver) :
    s.Runs tree payload q
      (s.conclude q (s.served tree payload q n).work (s.served tree payload q n).isCutShort)
      (s.served tree payload q n).journal := by
  cases hv : s.violations payload with
  | error e => simp [hv, Except.isOk, Except.toBool] at hok
  | ok vs =>
    refine .completed hv ?_ hover
    rw [served, hv]
    exact Crew.reaches_proceed n _

end Session

namespace Crew

/-- A crew that stands where a pool stands, with `n` starts still to be tried. -/
structure Matches (p : Pool) (n : ℕ) (c : Crew) : Prop where
  waiting : c.waiting = p.waiting
  running : c.running = p.running.map (⟨·, .begun⟩)
  work : c.work = p.work
  cutShort : c.joined.any (·.stage.isInterrupted) = p.cutShort
  slots : c.slots = n

variable {planner : Planner} {dryRun : Bool}

theorem Matches.start {p : Pool} {n : ℕ} {c : Crew} (h : Matches p (n + 1) c) :
    ∃ c', Step planner dryRun c c' ∧ Matches p.start n c' := by
  have hskip : c.work.interrupt ∨ c.waiting = [] →
      Step planner dryRun c { c with slots := n } ∧ Matches p n { c with slots := n } :=
    fun hnone => ⟨.skip h.slots hnone, h.waiting, h.running, h.work, h.cutShort, rfl⟩
  unfold Pool.start
  split
  · next u us hw =>
    split
    · next hi => exact ⟨_, hskip (.inl (by rw [h.work, hi]))⟩
    · next hi =>
      refine ⟨_, .start h.slots (by simpa [h.work] using hi) (h.waiting.trans hw), ?_⟩
      exact ⟨rfl, by simp [h.running], h.work, h.cutShort, rfl⟩
  · next hw => exact ⟨_, hskip (.inr (h.waiting.trans hw))⟩

theorem Matches.startAll {p : Pool} {n k : ℕ} {c : Crew} (h : Matches p (k + n) c) :
    ∃ c', Reaches planner dryRun c c' ∧ Matches (Nat.repeat Pool.start n p) k c' := by
  induction n generalizing k with
  | zero => exact ⟨c, .refl, h⟩
  | succ n ih =>
    obtain ⟨b, hb, hmatches⟩ := ih (k := k + 1) (by rwa [Nat.add_right_comm])
    obtain ⟨c', hstep, hmatches⟩ := hmatches.start
    exact ⟨c', hb.tail hstep, hmatches⟩

/-- The oldest task goes on alone while the others have not begun. -/
theorem reaches_of_proceeds {u : FileUnit} {st st' : Stage} {w w' : Work} {events : List Event}
    (h : Work.Proceeds planner dryRun u st w events st' w') {c : Crew} {after : List Task}
    (hrunning : c.running = ⟨u, st⟩ :: after) (hafter : ∀ t ∈ after, t.stage.holds = false)
    (hwork : c.work = w) :
    ∃ journal, Reaches planner dryRun c
      { c with running := ⟨u, st'⟩ :: after, work := w', journal := journal } := by
  induction h generalizing c with
  | refl st w =>
    refine ⟨c.journal, ?_⟩
    rw [← hrunning, ← hwork]
    exact .refl
  | @step st st' w w' a events ha _ ih =>
    have hstep : Step planner dryRun c (c.advanced [] u after a) :=
      .advance hrunning (fun _ => hafter) (by rw [hwork]; exact ha)
    obtain ⟨journal, hrest⟩ := ih (c := c.advanced [] u after a) rfl rfl
    exact ⟨journal, .head hstep hrest⟩

theorem Matches.step {p : Pool} {c : Crew} (h : Matches p 0 c) {u : FileUnit}
    {us : List FileUnit} (hrunning : p.running = u :: us) :
    ∃ c', Reaches planner dryRun c c' ∧ Matches (p.step planner dryRun u us) 0 c' := by
  obtain ⟨events, hproceeds⟩ := Work.complete_proceeds planner dryRun u p.work
  have hc : c.running = ⟨u, .begun⟩ :: us.map (⟨·, .begun⟩) := by
    rw [h.running, hrunning, List.map_cons]
  have hfree : ∀ t ∈ us.map (fun v => (⟨v, .begun⟩ : Task)), t.stage.holds = false := by
    intro t ht
    obtain ⟨v, -, rfl⟩ := List.mem_map.mp ht
    rfl
  obtain ⟨journal, hreach⟩ := reaches_of_proceeds hproceeds hc hfree h.work
  let kind := (p.work.complete planner dryRun u).1
  let b : Crew :=
    { c with
      running := ⟨u, .ended kind⟩ :: us.map (⟨·, .begun⟩)
      work := (p.work.complete planner dryRun u).2
      journal := journal }
  have hsplit : b.running = [] ++ ⟨u, .ended kind⟩ :: us.map (⟨·, .begun⟩) := rfl
  have hjoin : Step planner dryRun b _ := .join h.slots hsplit rfl
  have hmatches : Matches
      { p with
        running := us
        work := (p.work.complete planner dryRun u).2
        cutShort := p.cutShort || kind == .interrupted } 1
      { b with
        running := us.map (⟨·, .begun⟩)
        joined := b.joined ++ [⟨u, .ended kind⟩]
        slots := 1 } := by
    refine ⟨h.waiting, rfl, rfl, ?_, rfl⟩
    rw [List.any_append, h.cutShort]
    cases kind <;> simp [Stage.isInterrupted]
  obtain ⟨c', hstart, hstarted⟩ := hmatches.start
  exact ⟨c', (hreach.tail hjoin).tail hstart, hstarted⟩

theorem Matches.drain {p : Pool} {c : Crew} (h : Matches p 0 c) :
    ∃ c', Reaches planner dryRun c c' ∧ Matches (p.drain planner dryRun) 0 c' ∧
      (p.drain planner dryRun).running = [] := by
  fun_induction Pool.drain planner dryRun p generalizing c with
  | case1 p hp => exact ⟨c, .refl, h, hp⟩
  | case2 p u us hp _ ih =>
    obtain ⟨b, hb, hstepped⟩ := h.step hp
    obtain ⟨c', hc', hdrained⟩ := ih hstepped
    exact ⟨c', hb.trans hc', hdrained⟩

end Crew

/-- The pool is one of the schedules: what a run gives is among its outcomes. -/
theorem Session.runs_run (s : Session) (tree : FileTree) (payload : Except LintError Text)
    (q : Request) : ∃ journal, s.Runs tree payload q (s.run tree payload q) journal := by
  cases hv : s.violations payload with
  | error e =>
    rw [run, hv]
    exact ⟨[], .refused hv⟩
  | ok vs =>
    let vs' := relevant q vs
    let planner := Planner.new s.registry q.selected
    have hopen : Crew.Matches ⟨units vs', [], s.work tree q vs', false⟩
        (0 + s.settings.workersFor (units vs').length) (s.crew tree q vs') :=
      ⟨rfl, rfl, rfl, rfl, (Nat.zero_add _).symm⟩
    obtain ⟨b, hb, hfilled⟩ :
        ∃ b, Crew.Reaches planner q.dryRun _ b ∧ Crew.Matches _ 0 b := hopen.startAll
    obtain ⟨c, hc, hdrained, hidle⟩ :
        ∃ c, Crew.Reaches planner q.dryRun b c ∧ Crew.Matches _ 0 c ∧ _ = [] := hfilled.drain
    have hover : c.isOver := by
      simp [Crew.isOver, hdrained.slots, hdrained.running, hidle]
    have hout : s.run tree payload q = s.conclude q c.work c.isCutShort := by
      rw [run, hv, hdrained.work, Crew.isCutShort, hdrained.cutShort, hdrained.waiting]
      rfl
    rw [hout]
    exact ⟨c.journal, .completed hv (hb.trans hc) hover⟩

end Errata
