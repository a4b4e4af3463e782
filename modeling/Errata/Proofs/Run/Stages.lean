import Errata.Run.Work
import Mathlib.Data.List.Basic

/-!
# A unit of work, step by step

Units that are under way at the same time interleave. What cannot be divided is a read of the
cache, the planning, a look at the interrupt, a backup and a rewrite of the file; a unit goes from
one to the next through its stages. Whatever a step does for others to see is an event, and the
report is what all events together have noted in it.
-/
namespace Errata

inductive Stage where
  | begun
  /-- Its file could not be read, and the report does not say so yet. -/
  | refused (e : DocumentError)
  | loaded (d : Document)
  | planned (x : Prepared)
  /-- No interrupt was seen any more. -/
  | cleared (x : Prepared)
  /-- The file has been copied, and is to be rewritten. -/
  | copied (x : Prepared)
  | ended (c : Completion)

inductive Event where
  | read (d : Document)
  | unread (e : DocumentError)
  | dropped
  /-- Nothing was to be made. -/
  | left (fixes : List Fix)
  | copied (place : Except BackupError Path)
  | unchanged (o : Edit.Outcome)
  | written (o : Edit.Outcome) (encoding : Encoding)
  | unwritten (o : Edit.Outcome) (e : DocumentError)

/-- The events of a run, each with the file of its unit. -/
abbrev Journal := List (Path × Event)

def Report.note (r : Report) (p : Path) : Event → Report
  | .read _ | .dropped => r
  | .unread e => { r with errors := r.errors ++ [p.text ++ ": " ++ e.message] }
  | .left fixes => { r with processed := r.processed.insert p, skipped := r.skipped ++ fixes }
  | .copied _ => { r with processed := r.processed.insert p }
  | .unchanged o =>
    { r with skipped := r.skipped ++ o.skipped, applied := r.applied ++ o.applied }
  | .written o _ =>
    { r with
      modified := r.modified.insert p
      skipped := r.skipped ++ o.skipped
      applied := r.applied ++ o.applied }
  | .unwritten o e =>
    { r with
      errors := r.errors ++ [p.text ++ ": " ++ e.message]
      skipped := r.skipped ++ o.skipped ++ o.applied }

def Report.noteAll (r : Report) (j : Journal) : Report := j.foldl (fun r x => r.note x.1 x.2) r

theorem Report.noteAll_append (r : Report) (j k : Journal) :
    r.noteAll (j ++ k) = (r.noteAll j).noteAll k := List.foldl_append

/-- A step of a unit: its events, where the unit stands and what the units share after it. -/
structure Advance where
  events : List Event
  stage : Stage
  work : Work

namespace Work

def note (w : Work) (p : Path) (e : Event) : Work := { w with report := w.report.note p e }

/-- The next step of a unit, until it has ended. -/
def advance (planner : Planner) (dryRun : Bool) (u : FileUnit) (w : Work) :
    Stage → Option Advance
  | .begun =>
    match w.cache.read w.tree u.file with
    | (.error e, cache) => some ⟨[], .refused e, { w with cache := cache }⟩
    | (.ok d, cache) => some ⟨[.read d], .loaded d, { w with cache := cache }⟩
  | .refused e => some ⟨[.unread e], .ended .failed, w.note u.file (.unread e)⟩
  | .loaded d => some ⟨[], .planned (w.plan planner u d).1, (w.plan planner u d).2⟩
  | .planned x =>
    if w.interrupt then some ⟨[.dropped], .ended .interrupted, w⟩
    else some ⟨[], .cleared x, w⟩
  | .cleared x =>
    if dryRun || x.fixes.isEmpty then
      some ⟨[.left x.fixes], .ended .done, w.note u.file (.left x.fixes)⟩
    else
      match w.backups.backup w.tree u.file with
      | (place, backups, tree) =>
        some ⟨[.copied place], .copied x,
          { w with backups := backups, tree := tree }.note u.file (.copied place)⟩
  | .copied x =>
    let o := Edit.apply x.document.text x.fixes
    if o.content = x.document.text then
      some ⟨[.unchanged o], .ended .done, w.note u.file (.unchanged o)⟩
    else match Document.write w.tree u.file o.content x.document.encoding with
      | .ok tree =>
        some ⟨[.written o x.document.encoding], .ended .done,
          { w with tree := tree }.note u.file (.written o x.document.encoding)⟩
      | .error e => some ⟨[.unwritten o e], .ended .failed, w.note u.file (.unwritten o e)⟩
  | .ended _ => none

/-- Some steps of a unit on its own. -/
inductive Proceeds (planner : Planner) (dryRun : Bool) (u : FileUnit) :
    Stage → Work → List Event → Stage → Work → Prop
  | refl (st : Stage) (w : Work) : Proceeds planner dryRun u st w [] st w
  | step {st st' : Stage} {w w' : Work} {a : Advance} {events : List Event}
      (h : w.advance planner dryRun u st = some a)
      (rest : Proceeds planner dryRun u a.stage a.work events st' w') :
      Proceeds planner dryRun u st w (a.events ++ events) st' w'

theorem advance_copied (planner : Planner) (dryRun : Bool) (u : FileUnit) (w : Work)
    (x : Prepared) : ∃ events, w.advance planner dryRun u (.copied x) =
      some ⟨events, .ended (w.rewrite u.file x).1, (w.rewrite u.file x).2⟩ := by
  simp only [advance, rewrite]
  split
  · exact ⟨_, rfl⟩
  · have htree : (w.addSkipped (Edit.apply x.document.text x.fixes).skipped).tree = w.tree := rfl
    rw [htree]
    cases Document.write w.tree u.file (Edit.apply x.document.text x.fixes).content
        x.document.encoding with
    | ok tree => exact ⟨_, rfl⟩
    | error e => exact ⟨_, rfl⟩

theorem record_proceeds (planner : Planner) (dryRun : Bool) (u : FileUnit) (w : Work)
    (x : Prepared) : ∃ events, Proceeds planner dryRun u (.cleared x) w events
      (.ended (w.record dryRun u.file x).1) (w.record dryRun u.file x).2 := by
  unfold record
  by_cases hleft : dryRun || x.fixes.isEmpty
  · rw [if_pos hleft]
    exact ⟨_, .step (by rw [advance, if_pos hleft]) (.refl _ _)⟩
  · rw [if_neg hleft]
    have hcopy : ∃ events, w.advance planner dryRun u (.cleared x) =
        some ⟨events, .copied x, (w.addProcessed u.file).backUp u.file⟩ := by
      simp only [advance, if_neg hleft, backUp, addProcessed]
      cases w.backups.backup w.tree u.file with
      | mk place rest => exact ⟨_, rfl⟩
    obtain ⟨copy, hcopy⟩ := hcopy
    obtain ⟨events, hrewrite⟩ :=
      advance_copied planner dryRun u ((w.addProcessed u.file).backUp u.file) x
    exact ⟨_, .step hcopy (.step hrewrite (.refl _ _))⟩

theorem commit_proceeds (planner : Planner) (dryRun : Bool) (u : FileUnit) (w : Work)
    (x : Prepared) : ∃ events, Proceeds planner dryRun u (.planned x) w events
      (.ended (w.commit dryRun u.file x).1) (w.commit dryRun u.file x).2 := by
  unfold commit
  by_cases hi : w.interrupt
  · rw [if_pos hi]
    exact ⟨_, .step (by rw [advance, if_pos hi]) (.refl _ _)⟩
  · rw [if_neg hi]
    obtain ⟨events, hrecord⟩ := record_proceeds planner dryRun u w x
    exact ⟨_, .step (by rw [advance, if_neg hi]) hrecord⟩

/-- Alone, the steps of a unit make up a whole unit of work. -/
theorem complete_proceeds (planner : Planner) (dryRun : Bool) (u : FileUnit) (w : Work) :
    ∃ events, Proceeds planner dryRun u .begun w events
      (.ended (w.complete planner dryRun u).1) (w.complete planner dryRun u).2 := by
  unfold complete prepare load
  cases hread : w.cache.read w.tree u.file with
  | mk r cache =>
    cases r with
    | error e =>
      have hbegun : w.advance planner dryRun u .begun =
          some ⟨[], .refused e, { w with cache := cache }⟩ := by
        rw [advance, hread]
      exact ⟨_, .step hbegun (.step rfl (.refl _ _))⟩
    | ok d =>
      have hbegun : w.advance planner dryRun u .begun =
          some ⟨[.read d], .loaded d, { w with cache := cache }⟩ := by
        rw [advance, hread]
      obtain ⟨events, hcommit⟩ := commit_proceeds planner dryRun u
        (({ w with cache := cache } : Work).plan planner u d).2
        (({ w with cache := cache } : Work).plan planner u d).1
      exact ⟨_, .step hbegun (.step rfl hcommit)⟩

end Work

def FileUnit.prepared (u : FileUnit) (planner : Planner) (d : Document) : Prepared :=
  ⟨d, planner.fixes u.violations d.text⟩

def Prepared.outcome (x : Prepared) : Edit.Outcome := Edit.apply x.document.text x.fixes

inductive History (planner : Planner) (dryRun : Bool) (u : FileUnit) : Stage → List Event → Prop
  | begun : History planner dryRun u .begun []
  | refused (e : DocumentError) : History planner dryRun u (.refused e) []
  | unread (e : DocumentError) : History planner dryRun u (.ended .failed) [.unread e]
  | loaded (d : Document) : History planner dryRun u (.loaded d) [.read d]
  | planned (d : Document) : History planner dryRun u (.planned (u.prepared planner d)) [.read d]
  | dropped (d : Document) : History planner dryRun u (.ended .interrupted) [.read d, .dropped]
  | cleared (d : Document) : History planner dryRun u (.cleared (u.prepared planner d)) [.read d]
  | left (d : Document) (h : dryRun || (u.prepared planner d).fixes.isEmpty) :
      History planner dryRun u (.ended .done) [.read d, .left (u.prepared planner d).fixes]
  | copied (d : Document) (place : Except BackupError Path)
      (h : ¬(dryRun || (u.prepared planner d).fixes.isEmpty)) :
      History planner dryRun u (.copied (u.prepared planner d)) [.read d, .copied place]
  | unchanged (d : Document) (place : Except BackupError Path)
      (h : ¬(dryRun || (u.prepared planner d).fixes.isEmpty))
      (ho : (u.prepared planner d).outcome.content = d.text) :
      History planner dryRun u (.ended .done)
        [.read d, .copied place, .unchanged (u.prepared planner d).outcome]
  | written (d : Document) (place : Except BackupError Path)
      (h : ¬(dryRun || (u.prepared planner d).fixes.isEmpty))
      (ho : (u.prepared planner d).outcome.content ≠ d.text) :
      History planner dryRun u (.ended .done)
        [.read d, .copied place, .written (u.prepared planner d).outcome d.encoding]
  | unwritten (d : Document) (place : Except BackupError Path) (e : DocumentError)
      (h : ¬(dryRun || (u.prepared planner d).fixes.isEmpty))
      (ho : (u.prepared planner d).outcome.content ≠ d.text) :
      History planner dryRun u (.ended .failed)
        [.read d, .copied place, .unwritten (u.prepared planner d).outcome e]

theorem History.advance {planner : Planner} {dryRun : Bool} {u : FileUnit} {st : Stage}
    {events : List Event} (h : History planner dryRun u st events) {w : Work} {a : Advance}
    (ha : w.advance planner dryRun u st = some a) :
    History planner dryRun u a.stage (events ++ a.events) := by
  cases h with
  | begun =>
    simp only [Work.advance] at ha
    split at ha <;> obtain rfl := Option.some.inj ha
    · exact .refused _
    · exact .loaded _
  | refused e =>
    obtain rfl := Option.some.inj ha
    exact .unread e
  | loaded d =>
    obtain rfl := Option.some.inj ha
    exact .planned d
  | planned d =>
    simp only [Work.advance] at ha
    split at ha <;> obtain rfl := Option.some.inj ha
    · exact .dropped d
    · exact .cleared d
  | cleared d =>
    simp only [Work.advance] at ha
    split at ha <;> obtain rfl := Option.some.inj ha
    · next hleft => exact .left d hleft
    · next hleft => exact .copied d _ hleft
  | copied d place hleft =>
    simp only [Work.advance] at ha
    split at ha
    · next heq =>
      obtain rfl := Option.some.inj ha
      exact .unchanged d place hleft heq
    · next hne =>
      split at ha <;> obtain rfl := Option.some.inj ha
      · exact .written d place hleft hne
      · exact .unwritten d place _ hleft hne
  | unread | dropped | left | unchanged | written | unwritten => cases ha

end Errata
