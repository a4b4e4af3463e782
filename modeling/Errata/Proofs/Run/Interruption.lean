import Mathlib.Algebra.GroupWithZero.Nat
import Errata.Proofs.Run.Restoration

/-!
# Runs that are interrupted

The interrupt is looked at before each start of a unit and once more before the fixes of a unit are
made. Whenever it is set, the units that have started are the first ones, no more of them are under
way than there are workers, and every run can come to its end. A unit that was dropped or never
started is left out, and a run is cut short exactly if it leaves some unit out.
-/
namespace Errata

open FileTree

namespace Event

def error? : Event → Option DocumentError
  | .unread e | .unwritten _ e => some e
  | _ => none

end Event

def Journal.errors (j : Journal) : List Text :=
  j.filterMap fun x => x.2.error?.map fun e => x.1.text ++ ": " ++ e.message

theorem Report.noteAll_errors (r : Report) (j : Journal) :
    (r.noteAll j).errors = r.errors ++ j.errors := by
  induction j generalizing r with
  | nil => simp [noteAll, Journal.errors]
  | cons x j ih =>
    refine (ih _).trans ?_
    obtain ⟨p, e⟩ := x
    cases e <;> simp [note, Journal.errors, Event.error?]

/-- The interrupt is never taken back, and a unit that is dropped has seen it. -/
theorem Work.interrupt_of_advance {planner : Planner} {dryRun : Bool} {u : FileUnit} {w : Work}
    {st : Stage} {a : Advance} (ha : w.advance planner dryRun u st = some a)
    (h : w.interrupt = true ∨ a.stage.isInterrupted) : a.work.interrupt = true := by
  cases st with
  | begun | planned | cleared =>
    simp only [advance] at ha
    split at ha <;> obtain rfl := Option.some.inj ha <;> simp_all [note, Stage.isInterrupted]
  | refused | loaded =>
    obtain rfl := Option.some.inj ha
    simp_all [note, plan, Stage.isInterrupted]
  | copied x =>
    simp only [advance] at ha
    split at ha
    · obtain rfl := Option.some.inj ha
      simp_all [note, Stage.isInterrupted]
    · split at ha <;> obtain rfl := Option.some.inj ha <;> simp_all [note, Stage.isInterrupted]
  | ended c => cases ha

namespace Crew

/-- How many units are under way. As long as nobody interrupts and there is something to start,
every worker has a unit or is about to get one. -/
structure Manned (workers : ℕ) (c : Crew) : Prop where
  load : c.running.length + c.slots ≤ workers
  full : c.work.interrupt = false → c.waiting ≠ [] → c.running.length + c.slots = workers
  seen : ∀ t ∈ c.tasks, t.stage.isInterrupted → c.work.interrupt = true

variable {planner : Planner} {dryRun : Bool} {c c' : Crew} {workers : ℕ}

theorem Manned.step (h : Manned workers c) (hstep : Step planner dryRun c c') :
    Manned workers c' := by
  obtain ⟨hload, hfull, hseen⟩ := h
  cases hstep with
  | interrupt => exact ⟨hload, by simp, fun _ _ _ => rfl⟩
  | @start n u us hslots hclear hwaiting =>
    refine ⟨?_, fun hi _ => ?_, fun t ht hi => ?_⟩
    · simp only [List.length_append, List.length_singleton]
      omega
    · have := hfull hi (by simp [hwaiting])
      simp only [List.length_append, List.length_singleton]
      omega
    · simp only [tasks, List.mem_append, List.mem_singleton] at ht
      rcases ht with ht | ht | rfl
      · exact hseen t (List.mem_append_left _ ht) hi
      · exact hseen t (List.mem_append_right _ ht) hi
      · cases hi
  | @skip n hslots hnone =>
    refine ⟨by simp only; omega, fun hi hne => ?_, hseen⟩
    rcases hnone with hnone | hnone
    · simp_all
    · exact absurd hnone hne
  | @advance before after u st a hrunning hfree ha =>
    have hlength : (before ++ ⟨u, a.stage⟩ :: after).length = c.running.length := by
      simp [hrunning]
    have hinterrupt := Work.interrupt_of_advance ha
    refine ⟨?_, fun hi hne => ?_, fun t ht hi => ?_⟩
    · simpa only [advanced, hlength] using hload
    · have hclear : c.work.interrupt = false := by
        by_contra hset
        simp_all [advanced]
      simpa only [advanced, hlength] using hfull hclear hne
    · rcases List.mem_cons.mp ((Staffed.tasks_perm rfl).mem_iff.mp ht) with rfl | ht
      · exact hinterrupt (.inr hi)
      · have hold := (Staffed.tasks_perm hrunning).mem_iff.mpr (List.mem_cons_of_mem _ ht)
        exact hinterrupt (.inl (hseen t hold hi))
  | @join before after t hslots hrunning hended =>
    have hlength : c.running.length = (before ++ after).length + 1 := by
      simp [hrunning]
      omega
    refine ⟨by simp only; omega, fun hi hne => ?_, fun t' ht hi => ?_⟩
    · have := hfull hi hne
      simp only
      omega
    · refine hseen t' ?_ hi
      simp only [tasks, hrunning, List.mem_append, List.mem_cons] at ht ⊢
      tauto

theorem Manned.reaches (h : Manned workers c) (hreach : Reaches planner dryRun c c') :
    Manned workers c' := by
  induction hreach with
  | refl => exact h
  | tail _ hstep ih => exact ih.step hstep

theorem Manned.of_reaches {s : Session} {tree : FileTree} {q : Request} {vs : List Violation}
    (hreach : Reaches planner dryRun (s.crew tree q vs) c) :
    Manned (s.settings.workersFor (Session.units vs).length) c := by
  refine Manned.reaches ⟨?_, ?_, ?_⟩ hreach
  · simp [Session.crew]
  · simp [Session.crew]
  · simp [tasks, Session.crew]

theorem Manned.interrupt_of_isCutShort (h : Manned workers c) (hworkers : 0 < workers)
    (hover : c.isOver) (hcut : c.isCutShort) : c.work.interrupt = true := by
  simp only [isOver, Bool.and_eq_true, beq_iff_eq, List.isEmpty_iff] at hover
  simp only [isCutShort, Bool.or_eq_true, List.any_eq_true, Bool.not_eq_true',
    List.isEmpty_eq_false_iff] at hcut
  rcases hcut with ⟨t, ht, hi⟩ | hwaiting
  · exact h.seen t (List.mem_append_left _ ht) hi
  · by_contra hclear
    have hfull := h.full (by simpa using hclear) hwaiting
    rw [hover.1, hover.2, List.length_nil] at hfull
    omega

end Crew

/-- More than the number of steps that a unit still has before it. -/
def Stage.load : Stage → ℕ
  | .begun => 7
  | .loaded _ => 6
  | .planned _ => 5
  | .cleared _ => 4
  | .refused _ | .copied _ => 3
  | .ended _ => 2

theorem Work.exists_advance (planner : Planner) (dryRun : Bool) (u : FileUnit) (w : Work)
    {st : Stage} (h : st.isEnded = false) :
    ∃ a, w.advance planner dryRun u st = some a ∧ a.stage.load < st.load := by
  cases st with
  | begun | planned | cleared =>
    simp only [advance]
    split <;> exact ⟨_, rfl, by simp [Stage.load]⟩
  | refused | loaded => exact ⟨_, rfl, by simp [Stage.load]⟩
  | copied =>
    simp only [advance]
    split
    · exact ⟨_, rfl, by simp [Stage.load]⟩
    · split <;> exact ⟨_, rfl, by simp [Stage.load]⟩
  | ended => cases h

namespace Crew

variable {planner : Planner} {dryRun : Bool}

def load (c : Crew) : ℕ :=
  8 * c.waiting.length + (c.running.map (·.stage.load)).sum + c.slots

theorem exists_advance {c : Crew} {before after : List Task} {t : Task}
    (hr : c.running = before ++ t :: after) (ht : t.stage.isEnded = false)
    (hfree : t.stage.records → ∀ t ∈ before ++ after, t.stage.holds = false) :
    ∃ c', Step planner dryRun c c' ∧ c'.load < c.load := by
  obtain ⟨a, ha, hload⟩ := c.work.exists_advance planner dryRun t.unit ht
  refine ⟨_, .advance hr hfree ha, ?_⟩
  simp only [load, advanced, hr, List.map_append, List.map_cons, List.sum_append, List.sum_cons]
  omega

/-- A run that is not over can go on. Whoever holds the report is the one to do so. -/
theorem exists_step {c : Crew} (h : c.isOver = false) :
    ∃ c', Step planner dryRun c c' ∧ c'.load < c.load := by
  cases hslots : c.slots with
  | succ n =>
    by_cases hnone : c.work.interrupt ∨ c.waiting = []
    · refine ⟨_, .skip hslots hnone, ?_⟩
      simp only [load, hslots]
      omega
    · push Not at hnone
      obtain ⟨hi, hw⟩ := hnone
      obtain ⟨u, us, hw⟩ := List.exists_cons_of_ne_nil hw
      refine ⟨_, .start hslots (by simpa using hi) hw, ?_⟩
      simp only [load, hslots, hw, List.map_append, List.map_singleton, List.sum_append,
        List.sum_singleton, List.length_cons, Stage.load]
      omega
  | zero =>
    by_cases hholder : ∃ t ∈ c.running, t.stage.holds
    · obtain ⟨t, ht, hholds⟩ := hholder
      obtain ⟨before, after, hr⟩ := List.append_of_mem ht
      apply exists_advance hr
      · unfold Stage.holds at hholds
        split at hholds <;> simp_all [Stage.isEnded]
      · unfold Stage.holds at hholds
        split at hholds <;> simp_all [Stage.records]
    · push Not at hholder
      obtain ⟨t, ts, hr⟩ := List.exists_cons_of_ne_nil (l := c.running) (by simp_all [isOver])
      cases hended : t.stage.isEnded with
      | true =>
        refine ⟨_, .join hslots (hr.trans (List.nil_append _).symm) hended, ?_⟩
        have htwo : t.stage.load = 2 := by
          unfold Stage.isEnded at hended
          split at hended <;> simp_all [Stage.load]
        simp only [load, hslots, hr, List.map_cons, List.sum_cons, List.nil_append, htwo]
        omega
      | false =>
        apply exists_advance (hr.trans (List.nil_append _).symm) hended
        intro _ t' ht'
        simpa using hholder t' (by simp_all)

theorem exists_over (c : Crew) : ∃ c', Reaches planner dryRun c c' ∧ c'.isOver := by
  induction hn : c.load using Nat.strongRecOn generalizing c with
  | ind n ih =>
    cases hover : c.isOver with
    | true => exact ⟨c, .refl, hover⟩
    | false =>
      obtain ⟨b, hstep, hload⟩ : ∃ b, Step planner dryRun c b ∧ b.load < c.load :=
        exists_step hover
      obtain ⟨c', hreach, hdone⟩ := ih _ (hn ▸ hload) b rfl
      exact ⟨c', .head hstep hreach, hdone⟩

end Crew

theorem History.ended_cases {planner : Planner} {dryRun : Bool} {u : FileUnit} {k : Completion}
    {events : List Event} (h : History planner dryRun u (.ended k) events) :
    (events.any Event.processes ∧ k ≠ .interrupted) ∨
      (∃ e, events = [.unread e] ∧ k = .failed) ∨
      (∃ d, events = [.read d, .dropped] ∧ k = .interrupted) := by
  cases h with
  | unread e => exact .inr (.inl ⟨e, rfl, rfl⟩)
  | dropped d => exact .inr (.inr ⟨d, rfl, rfl⟩)
  | left | unchanged | written | unwritten => exact .inl ⟨by simp [Event.processes], by simp⟩

namespace Crew

variable {planner : Planner} {dryRun : Bool} {vs : List Violation} {c : Crew}

theorem Staffed.waiting_or_joined (h : Staffed planner dryRun (Session.units vs) c)
    (hover : c.isOver) {u : FileUnit} (hu : u ∈ Session.units vs) :
    (u ∈ c.waiting ∧ c.journal.about u.file = []) ∨
      ∃ t ∈ c.joined, t.unit = u ∧ ∃ k, t.stage = .ended k ∧
        History planner dryRun u (.ended k) (c.journal.about u.file) := by
  have hidle : c.running = [] := by
    simp only [isOver, Bool.and_eq_true, List.isEmpty_iff] at hover
    exact hover.2
  rcases List.mem_append.mp (h.all.mem_iff.mpr hu) with hu | hu
  · obtain ⟨t, ht, rfl⟩ := List.mem_map.mp hu
    have hhistory := h.history t ht
    rw [tasks, hidle, List.append_nil] at ht
    have hended := h.ended t ht
    refine .inr ⟨t, ht, rfl, ?_⟩
    cases hst : t.stage with
    | ended k => exact ⟨k, rfl, hst ▸ hhistory⟩
    | _ => simp [hst, Stage.isEnded] at hended
  · exact .inl ⟨hu, h.unstarted (Session.nodup_files vs) hu⟩

theorem processed_iff {s : Session} {q : Request} {tree : FileTree} {p : Path}
    (h : Staffed planner dryRun (Session.units vs) c)
    (ha : Accounted (s.work tree q vs) c.work c.journal) :
    p ∈ c.work.report.processed.toList ↔ (c.journal.about p).any Event.processes := by
  rw [mem_processed h ha rfl, Journal.any_about]

theorem Staffed.exists_started (h : Staffed planner dryRun (Session.units vs) c) :
    (∃ started, Session.units vs = started ++ c.waiting ∧
      (c.tasks.map Task.unit).Perm started) ∧
    (c.tasks.map (·.unit.file)).Nodup := by
  constructor
  · obtain ⟨started, hunits⟩ := h.order
    refine ⟨started, hunits.symm, ?_⟩
    have hall := h.all
    rw [← hunits] at hall
    exact (List.perm_append_right_iff _).mp hall
  · have hnodup := h.nodup (Session.nodup_files vs)
    rw [List.map_append, List.map_map] at hnodup
    exact (List.nodup_append.mp hnodup).1

/-- The unit of the file at `p` was never started, or it was dropped after it had read the file. -/
def LeavesOut (c : Crew) (p : Path) : Prop :=
  c.journal.about p = [] ∨ ∃ d, c.journal.about p = [.read d, .dropped]

theorem LeavesOut.mem_about {p : Path} (h : c.LeavesOut p) {e : Event}
    (he : e ∈ c.journal.about p) : (∃ d, e = .read d) ∨ e = .dropped := by
  rcases h with hnone | ⟨d, hdropped⟩
  · simp [hnone] at he
  · rw [hdropped, List.mem_pair] at he
    exact he.imp_left fun heq => ⟨d, heq⟩

/-- In a run that is over each file has been processed, could not be read, or was left out. -/
theorem Staffed.end_cases (h : Staffed planner dryRun (Session.units vs) c) (hover : c.isOver)
    {u : FileUnit} (hu : u ∈ Session.units vs) :
    (c.journal.about u.file).any Event.processes ∨
      (∃ t ∈ c.tasks, t.unit = u ∧ t.stage = .ended .failed ∧
        ∃ e, c.journal.about u.file = [.unread e]) ∨
      c.LeavesOut u.file := by
  rcases h.waiting_or_joined hover hu with ⟨-, hnone⟩ | ⟨t, ht, hunit, k, hk, hhistory⟩
  · exact .inr (.inr (.inl hnone))
  · rcases hhistory.ended_cases with ⟨hp, -⟩ | ⟨e, hp, rfl⟩ | ⟨d, hp, -⟩
    · exact .inl hp
    · exact .inr (.inl ⟨t, List.mem_append_left _ ht, hunit, hk, e, hp⟩)
    · exact .inr (.inr (.inr ⟨d, hp⟩))

theorem Staffed.isCutShort_iff (h : Staffed planner dryRun (Session.units vs) c)
    (hover : c.isOver) : c.isCutShort ↔ ∃ u ∈ Session.units vs, c.LeavesOut u.file := by
  have hsplit : c.isCutShort ↔ (∃ t ∈ c.joined, t.stage.isInterrupted) ∨ ∃ u, u ∈ c.waiting := by
    simp [isCutShort, List.eq_nil_iff_forall_not_mem]
  rw [hsplit]
  constructor
  · rintro (⟨t, ht, hi⟩ | ⟨u, hu⟩)
    · have hmem : t ∈ c.tasks := List.mem_append_left _ ht
      have hhistory := h.history t hmem
      have hk : t.stage = .ended .interrupted := by
        unfold Stage.isInterrupted at hi
        split at hi <;> simp_all
      rw [hk] at hhistory
      rcases hhistory.ended_cases with ⟨-, hk⟩ | ⟨e, -, hk⟩ | ⟨d, hp, -⟩
      · exact absurd rfl hk
      · cases hk
      · exact ⟨t.unit, h.unit_mem hmem, .inr ⟨d, hp⟩⟩
    · exact ⟨u, h.all.mem_iff.mp (List.mem_append_right _ hu),
        .inl (h.unstarted (Session.nodup_files vs) hu)⟩
  · rintro ⟨u, hu, hleft⟩
    rcases h.waiting_or_joined hover hu with ⟨hw, -⟩ | ⟨t, ht, rfl, k, hk, hhistory⟩
    · exact .inr ⟨u, hw⟩
    · refine .inl ⟨t, ht, ?_⟩
      rcases hhistory.ended_cases with ⟨hp, -⟩ | ⟨e, hp, -⟩ | ⟨-, -, rfl⟩
      · obtain ⟨e, he, hprocesses⟩ := List.any_eq_true.mp hp
        rcases hleft.mem_about he with ⟨d, rfl⟩ | rfl <;> cases hprocesses
      · rcases hleft.mem_about (hp ▸ List.mem_singleton_self _) with ⟨d, he⟩ | he <;> cases he
      · simp [hk, Stage.isInterrupted]

end Crew

end Errata
