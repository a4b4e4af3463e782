import Errata.Proofs.Run.Reuse

/-!
# A dry run is the plan of the run

A dry run changes no file, makes no backup and applies nothing. A run from the same state that is
not dry opens the same documents with the same outcome, so it processes the same files, plans the
same fixes for them and meets the same files that cannot be read. What it reports besides are
writes that fail. This holds as long as nothing that the run itself does gets in the way of a file
that it has still to read.
-/
namespace Errata

open FileTree

def Cache.opened (cache : Cache) (t : FileTree) (p : Path) : Except DocumentError Document :=
  (cache.read t p).1

/-- The file could not be written, or its new text has no bytes in its encoding. -/
def DocumentError.IsOfWriting (p : Path) (e : DocumentError) : Prop :=
  (∃ encoding, e = .notEncodable p encoding) ∨ ∃ cause, e = .ofCause .create p cause

namespace Event

/-- What an event says of the file at `p`, which gives `r` when it is opened. -/
def AgreesWith (r : Except DocumentError Document) (p : Path) : Event → Prop
  | .read d => r = .ok d
  | .unread e => r = .error e
  | .unwritten _ e => e.IsOfWriting p
  | _ => True

/-- The error that the report lists because the file at `p` could not be read. -/
def refusal (p : Path) : Event → List Text
  | .unread e => [p.text ++ ": " ++ e.message]
  | _ => []

/-- What went wrong because a file could not be written. -/
def failure? : Event → Option DocumentError
  | .unwritten _ e => some e
  | _ => none

/-- No file is changed and none is copied. -/
def isIdle : Event → Bool
  | .read _ | .unread _ | .dropped | .left _ => true
  | _ => false

end Event

namespace Journal

def failures (j : Journal) : List (Path × DocumentError) :=
  j.filterMap fun x => x.2.failure?.map fun e => (x.1, e)

/-- Nothing puts bytes at the place of the file at `p` before the first event about it. -/
def LeavesUnread (current : Location) (j : Journal) (p : Path) : Prop :=
  ∀ before, before <+: j → about before p = [] →
    ∀ x ∈ before, x.2.place? current x.1 ≠ some (locate current p)

end Journal

/-- Nothing comes in the way of the units that do not know their files yet: no bytes are put there
before their turn, and where the path of a file led nowhere, nothing has been made. -/
structure KeepsClear (known : Cache) (before after : FileTree) (journal : Journal)
    (us : List FileUnit) : Prop where
  unread : ∀ u ∈ us, known.get? u.file = none → journal.LeavesUnread before.current u.file
  missing : ∀ u ∈ us, known.get? u.file = none → ∀ l ∈ way before.current u.file,
    before.get? l = none → after.get? l = none

namespace Report

def failureTexts (failures : List (Path × DocumentError)) : List Text :=
  failures.map fun x => x.1.text ++ ": " ++ x.2.message

/-- A report lists what is planned for the files that can be opened, what keeps the others from
being opened, and these failures. -/
structure IsDue (r : Report) (planner : Planner) (general : List Text)
    (opened : Path → Except DocumentError Document) (failures : List (Path × DocumentError)) :
    Prop where
  processed : ∀ p, p ∈ r.processed.toList ↔
    (∃ u ∈ Session.units r.violations, u.file = p) ∧ ∃ d, opened p = .ok d
  fixes : r.fixes.Perm (r.processed.toList.flatMap fun p =>
    match opened p with
    | .ok d => planner.fixes (r.violations.filter (·.file.same p)) d.text
    | .error _ => [])
  errors : r.errors.Perm (general ++ ((Session.units r.violations).flatMap fun u =>
    match opened u.file with
    | .ok _ => []
    | .error e => [u.file.text ++ ": " ++ e.message]) ++ failureTexts failures)

/-- The first report foretells the second: all that it skips is applied or skipped there, and what
else goes wrong there are writes that fail. -/
structure IsPlanOf (plan r : Report) : Prop where
  violations : r.violations = plan.violations
  processed : r.processed = plan.processed
  fixes : plan.skipped.Perm (r.applied ++ r.skipped)
  errors : ∃ failures, r.errors.Perm (plan.errors ++ failureTexts failures) ∧
    ∀ x ∈ failures, x.2.IsOfWriting x.1

theorem IsDue.isPlanOf {plan r : Report} {planner : Planner} {general : List Text}
    {opened : Path → Except DocumentError Document} {failures : List (Path × DocumentError)}
    (h : plan.IsDue planner general opened []) (h' : r.IsDue planner general opened failures)
    (happlied : plan.applied = []) (hviolations : r.violations = plan.violations)
    (hfailures : ∀ x ∈ failures, x.2.IsOfWriting x.1) : plan.IsPlanOf r := by
  obtain ⟨hprocessed, hfixes, herrors⟩ := h
  obtain ⟨hprocessed', hfixes', herrors'⟩ := h'
  rw [hviolations] at hprocessed' hfixes' herrors'
  have hsame : r.processed = plan.processed := by
    refine PathSet.eq_of_perm ((List.perm_ext_iff_of_nodup (PathSet.nodup _) (PathSet.nodup _)).mpr
      fun p => ?_)
    rw [hprocessed, hprocessed']
  rw [hsame] at hfixes'
  rw [Report.fixes, happlied, List.nil_append] at hfixes
  refine ⟨hviolations, hsame, hfixes.trans hfixes'.symm, failures, ?_, hfailures⟩
  refine herrors'.trans (List.Perm.append_right _ ?_)
  simpa [failureTexts] using herrors.symm

end Report

theorem Document.isOfWriting {t : FileTree} {p : Path} {text : Text} {encoding : Encoding}
    {e : DocumentError} (h : Document.write t p text encoding = .error e) : e.IsOfWriting p := by
  unfold Document.write at h
  split at h
  · exact .inl ⟨encoding, (Except.error.inj h).symm⟩
  · split at h
    · next cause _ => exact .inr ⟨cause, (Except.error.inj h).symm⟩
    · cases h

/-- The steps of a unit agree with what its file gives when the unit begins. -/
theorem Work.agreesWith_of_advance {planner : Planner} {dryRun : Bool} {u : FileUnit} {w : Work}
    {st : Stage} {a : Advance} (ha : w.advance planner dryRun u st = some a)
    {r : Except DocumentError Document} (hbegun : st = .begun → w.cache.opened w.tree u.file = r)
    (hrefused : ∀ e, st = .refused e → r = .error e) :
    (∀ e ∈ a.events, e.AgreesWith r u.file) ∧ ∀ e, a.stage = .refused e → r = .error e := by
  cases st with
  | begun =>
    have hr := hbegun rfl
    simp only [advance] at ha
    split at ha <;> next hread =>
      obtain rfl := Option.some.inj ha
      rw [Cache.opened, hread] at hr
      subst hr
      simp [Event.AgreesWith]
  | refused e =>
    obtain rfl := Option.some.inj ha
    exact ⟨List.forall_mem_singleton.mpr (hrefused e rfl), by simp⟩
  | loaded d =>
    obtain rfl := Option.some.inj ha
    simp
  | planned x | cleared x =>
    simp only [advance] at ha
    split at ha <;> obtain rfl := Option.some.inj ha <;> simp [Event.AgreesWith]
  | copied x =>
    simp only [advance] at ha
    split at ha
    · obtain rfl := Option.some.inj ha
      simp [Event.AgreesWith]
    · split at ha <;> obtain rfl := Option.some.inj ha
      · simp [Event.AgreesWith]
      · next hwrite => simpa [Event.AgreesWith] using Document.isOfWriting hwrite
  | ended => cases ha

theorem History.processes_or_unread {planner : Planner} {dryRun : Bool} {u : FileUnit}
    {k : Completion} {events : List Event} (h : History planner dryRun u (.ended k) events)
    (hk : k ≠ .interrupted) :
    (∃ d, .read d ∈ events ∧ events.any Event.processes ∧
      events.flatMap (Event.refusal u.file) = []) ∨
    ∃ e, events = [.unread e] := by
  cases h with
  | unread e => exact .inr ⟨e, rfl⟩
  | dropped => exact absurd rfl hk
  | left d | unchanged d | written d | unwritten d => exact .inl ⟨d, by simp, rfl, rfl⟩

theorem Journal.failureTexts_failures (j : Journal) : Report.failureTexts j.failures =
    j.flatMap fun x => (x.2.failure?.map fun e => x.1.text ++ ": " ++ e.message).toList := by
  rw [Report.failureTexts, failures, List.map_filterMap, List.filterMap_eq_flatMap_toList]
  simp only [Option.map_map, Function.comp_def]

theorem Event.errors_eq (p : Path) (e : Event) :
    e.errors p = e.refusal p ++ (e.failure?.map fun e => p.text ++ ": " ++ e.message).toList := by
  cases e <;> rfl

namespace Crew

variable {planner : Planner} {dryRun : Bool} {vs : List Violation} {c c' : Crew} {w : Work}
  {u : FileUnit}

theorem keepsClear_of_reaches (hreach : Reaches planner dryRun c c')
    (hnamed : c.work.backups.IsNamed) {known : Cache} {tree : FileTree} {us : List FileUnit}
    (h : KeepsClear known tree c'.work.tree c'.journal us) :
    KeepsClear known tree c.work.tree c.journal us := by
  obtain ⟨j, hj, hsince⟩ := Accounted.since hreach hnamed
  refine ⟨fun u hu hnone before hbefore => ?_, fun u hu hnone l hl hmissing => ?_⟩
  · exact h.unread u hu hnone before (hj ▸ hbefore.trans (List.prefix_append _ _))
  · exact hsince.retains.isNone (h.missing u hu hnone l hl hmissing)

/-- What has been said of the files, and what is still to be said, agrees with what they give when
they are opened before the run. -/
structure Faithful (w : Work) (c : Crew) : Prop extends
    Vouched (fun p e => e.AgreesWith (w.cache.opened w.tree p) p) (w.cache.opened w.tree) c where
  limit : c.work.cache.limit = w.cache.limit

theorem opened_of_about (h : Staffed planner dryRun (Session.units vs) c)
    (ha : Accounted w c.work c.journal) (hlimit : c.work.cache.limit = w.cache.limit)
    (hclear : KeepsClear w.cache w.tree c.work.tree c.journal (Session.units vs))
    (hu : u ∈ Session.units vs) (hnone : c.journal.about u.file = []) :
    c.work.cache.opened c.work.tree u.file = w.cache.opened w.tree u.file := by
  have hknown := get?_of_about h ha hu hnone
  cases hd : w.cache.get? u.file with
  | some d => simp [Cache.opened, Cache.read, hknown, hd]
  | none =>
    have hbytes : c.work.tree.fileAt? (locate w.tree.current u.file) =
        w.tree.fileAt? (locate w.tree.current u.file) :=
      (congrFun (congrArg Scene.files ha.scene) _).trans
        (Journal.files_replay _ (hclear.unread u hu hd _ (List.prefix_refl _) hnone))
    rw [Cache.opened, Cache.opened, Cache.read_of_unknown (hknown.trans hd),
      Cache.read_of_unknown hd, hlimit, Document.read_eq_ofFound, Document.read_eq_ofFound,
      ha.retains.find_eq (hclear.missing u hu hd) hbytes]

theorem Faithful.step (hf : Faithful w c) (h : Staffed planner dryRun (Session.units vs) c)
    (ha : Accounted w c.work c.journal)
    (hclear : KeepsClear w.cache w.tree c.work.tree c.journal (Session.units vs))
    (hstep : Step planner dryRun c c') : Faithful w c' := by
  refine ⟨hf.toVouched.step hstep fun u st a hrunning hadvance => ?_,
    (limit_of_step hstep).trans hf.limit⟩
  refine Work.agreesWith_of_advance hadvance ?_ (hf.refused _ hrunning)
  rintro rfl
  have htask := List.mem_append_right c.joined hrunning
  exact opened_of_about h ha hf.limit hclear (h.unit_mem htask) (h.history _ htask).eq_nil_of_begun

section

variable {s : Session} {tree : FileTree} {q : Request}
  (hreach : Reaches planner dryRun (s.crew tree q vs) c)
  (hclear : KeepsClear s.cache tree c.work.tree c.journal (Session.units vs))

include hreach hclear

theorem faithful_of_reaches : Faithful (s.work tree q vs) c := by
  induction hreach with
  | refl => exact ⟨⟨by simp [Session.crew], by simp [Session.crew]⟩, rfl⟩
  | tail hreach hstep ih =>
    obtain ⟨hstaffed, haccounted⟩ := Session.reaches_crew hreach
    have hearlier := keepsClear_of_reaches (.single hstep) haccounted.named hclear
    exact (ih hearlier).step hstaffed haccounted hearlier hstep

theorem isOfWriting_of_failures : ∀ x ∈ c.journal.failures, x.2.IsOfWriting x.1 := by
  intro x hx
  obtain ⟨⟨p, e⟩, hmem, hfailure⟩ := List.mem_filterMap.mp hx
  have hagrees := (faithful_of_reaches hreach hclear).events _ hmem
  cases e with
  | unwritten o e =>
    obtain rfl := Option.some.inj hfailure
    exact hagrees
  | _ => cases hfailure

variable (hover : c.isOver) (hcut : c.isCutShort = false)

include hover hcut

/-- A unit has processed its file if the file can be opened, and it says why if not. -/
theorem opened_cases (hu : u ∈ Session.units vs) :
    (∃ d, s.cache.opened tree u.file = .ok d ∧ (u.file, .read d) ∈ c.journal ∧
      (c.journal.about u.file).any Event.processes ∧
      (c.journal.about u.file).flatMap (Event.refusal u.file) = []) ∨
    ∃ e, s.cache.opened tree u.file = .error e ∧ c.journal.about u.file = [.unread e] := by
  obtain ⟨h, -⟩ := Session.reaches_crew hreach
  have hf := faithful_of_reaches hreach hclear
  obtain ⟨k, hk, hhistory⟩ := h.completed hover hcut hu
  rcases hhistory.processes_or_unread hk with ⟨d, hd, hprocesses, hrefusal⟩ | ⟨e, he⟩
  · have hmem := Journal.mem_about.mp hd
    exact .inl ⟨d, hf.events _ hmem, hmem, hprocesses, hrefusal⟩
  · have hmem : (u.file, .unread e) ∈ c.journal := Journal.mem_about.mp (by simp [he])
    exact .inr ⟨e, hf.events _ hmem, he⟩

open scoped List in
theorem isDue_of_reaches :
    (s.conclude q c.work c.isCutShort).1.IsDue planner [] (s.cache.opened tree)
      c.journal.failures := by
  obtain ⟨h, ha⟩ := Session.reaches_crew hreach
  have hcases := fun u hu => opened_cases (u := u) hreach hclear hover hcut hu
  have hprocessed : ∀ p, p ∈ c.work.report.processed.toList ↔
      (∃ u ∈ Session.units vs, u.file = p) ∧ ∃ d, s.cache.opened tree p = .ok d := by
    intro p
    rw [mem_processed h ha rfl, ← Journal.any_about]
    constructor
    · intro hp
      obtain ⟨e, he, -⟩ := Journal.any_about.mp hp
      obtain ⟨u, hu, rfl⟩ := h.known_unit _ he
      refine ⟨⟨u, hu, rfl⟩, ?_⟩
      rcases hcases u hu with ⟨d, hd, -⟩ | ⟨e, -, habout⟩
      · exact ⟨d, hd⟩
      · simp [habout, Event.processes] at hp
    · rintro ⟨⟨u, hu, rfl⟩, d, hd⟩
      rcases hcases u hu with ⟨-, -, -, hp, -⟩ | ⟨e, he, -⟩
      · exact hp
      · simp [he] at hd
  have hviolations : c.work.report.violations = vs := ha.violations
  constructor <;> simp only [Session.conclude, hviolations]
  case processed => exact hprocessed
  case fixes =>
    refine (fixes_perm h ha rfl hover rfl).trans (.of_eq (List.flatMap_congr fun p hp => ?_))
    obtain ⟨⟨u, hu, rfl⟩, -⟩ := (hprocessed p).mp hp
    rcases hcases u hu with ⟨d, hd, hmem, -⟩ | ⟨e, he, habout⟩
    · simp [Session.planned, hd, ha.read u.file d hmem]
    · obtain ⟨d, hd⟩ := ((hprocessed u.file).mp hp).2
      simp [he] at hd
  case errors =>
    have hrefusals : ∀ u ∈ Session.units vs,
        (c.journal.about u.file).flatMap (Event.refusal u.file) =
          match s.cache.opened tree u.file with
          | .ok _ => []
          | .error e => [u.file.text ++ ": " ++ e.message] := by
      intro u hu
      rcases hcases u hu with ⟨d, hd, -, -, hnone⟩ | ⟨e, he, habout⟩
      · rw [hnone, hd]
      · rw [habout, he]
        rfl
    calc c.work.report.errors
      _ = c.journal.flatMap fun x => x.2.errors x.1 := by
          rw [ha.report, Report.noteAll_errors, Journal.errors_eq_flatMap]
          rfl
      _ ~ (c.journal.flatMap fun x => x.2.refusal x.1) ++
            Report.failureTexts c.journal.failures := by
          simp only [Event.errors_eq, Journal.failureTexts_failures]
          exact (List.flatMap_append_perm _ _ _).symm
      _ ~ (Session.units vs).flatMap (fun u =>
              (c.journal.about u.file).flatMap (Event.refusal u.file)) ++
            Report.failureTexts c.journal.failures :=
          (h.flatMap_perm fun p e => e.refusal p).append_right _
      _ = _ := by rw [List.flatMap_congr hrefusals, List.nil_append]

end

end Crew

namespace History

variable {planner : Planner} {u : FileUnit} {st : Stage} {events : List Event}

theorem isIdle (h : History planner true u st events) : ∀ e ∈ events, e.isIdle := by
  cases h with
  | copied _ _ h | unchanged _ _ h | written _ _ h | unwritten _ _ _ h => exact absurd rfl h
  | _ => simp [Event.isIdle]

theorem ne_copied (h : History planner true u st events) (x : Prepared) : st ≠ .copied x := by
  rintro rfl
  cases h with
  | copied _ _ h => exact absurd rfl h

end History

/-- Only a unit that has copied its file goes on to rewrite it, and in a dry run none has. -/
theorem Work.untouched_of_advance {planner : Planner} {u : FileUnit} {w : Work} {st : Stage}
    {a : Advance} (ha : w.advance planner true u st = some a) (hst : ∀ x, st ≠ .copied x) :
    a.work.tree = w.tree ∧ a.work.backups = w.backups := by
  cases st with
  | copied x => exact absurd rfl (hst x)
  | begun | planned =>
    simp only [advance] at ha
    split at ha <;> obtain rfl := Option.some.inj ha <;> exact ⟨rfl, rfl⟩
  | refused | loaded | cleared =>
    obtain rfl := Option.some.inj ha
    exact ⟨rfl, rfl⟩
  | ended => cases ha

namespace Crew

variable {planner : Planner} {vs : List Violation} {c : Crew} {s : Session} {tree : FileTree}
  {q : Request} (hreach : Reaches planner true (s.crew tree q vs) c)

include hreach

theorem isIdle_of_reaches : ∀ x ∈ c.journal, x.2.isIdle := by
  intro x hx
  obtain ⟨h, -⟩ := Session.reaches_crew hreach
  obtain ⟨t, ht, hfile⟩ := h.known x hx
  exact (h.history t ht).isIdle x.2 (Journal.mem_about.mpr (hfile ▸ hx))

theorem untouched_of_reaches : c.work.tree = tree ∧ c.work.backups.dir = none := by
  induction hreach with
  | refl => exact ⟨rfl, rfl⟩
  | tail hreach hstep ih =>
    obtain ⟨h, -⟩ := Session.reaches_crew hreach
    cases hstep with
    | interrupt | start | skip | join => exact ih
    | @advance before after u st a hr _ hadvance =>
      have hhistory := h.history ⟨u, st⟩ (List.mem_append_right _ (by simp [hr]))
      obtain ⟨htree, hbackups⟩ := Work.untouched_of_advance hadvance hhistory.ne_copied
      exact ⟨htree.trans ih.1, (congrArg Backups.dir hbackups).trans ih.2⟩

theorem keepsClear_of_dry (known : Cache) (us : List FileUnit) :
    KeepsClear known tree c.work.tree c.journal us := by
  refine ⟨fun u _ _ before hbefore _ x hx hplace => ?_, fun u _ _ l _ hnone => ?_⟩
  · have hidle := isIdle_of_reaches hreach x (hbefore.subset hx)
    obtain ⟨p, e⟩ := x
    cases e with
    | copied | written => cases hidle
    | _ => cases hplace
  · rwa [(untouched_of_reaches hreach).1]

theorem applied_of_dry : c.work.report.applied = [] := by
  obtain ⟨-, ha⟩ := Session.reaches_crew hreach
  rw [ha.report, Report.noteAll_applied]
  refine List.append_eq_nil_iff.mpr ⟨rfl, List.flatMap_eq_nil_iff.mpr fun x hx => ?_⟩
  have hidle := isIdle_of_reaches hreach x hx
  obtain ⟨p, e⟩ := x
  cases e with
  | unchanged | written => cases hidle
  | _ => rfl

theorem modified_of_dry : c.work.report.modified = ∅ := by
  obtain ⟨h, ha⟩ := Session.reaches_crew hreach
  have hnone : c.work.report.modified.toList = [] := by
    refine List.eq_nil_iff_forall_not_mem.mpr fun p hp => ?_
    obtain ⟨o, encoding, hwritten⟩ := (mem_modified h ha rfl).mp hp
    cases isIdle_of_reaches hreach _ hwritten
  exact PathSet.eq_of_perm (.of_eq hnone)

theorem failures_of_dry : c.journal.failures = [] := by
  refine List.filterMap_eq_nil_iff.mpr fun x hx => ?_
  have hidle := isIdle_of_reaches hreach x hx
  obtain ⟨p, e⟩ := x
  cases e with
  | unwritten => cases hidle
  | _ => rfl

end Crew

namespace Session

variable {s : Session} {tree : FileTree} {payload : Except LintError Text} {q : Request}
  {out : Report × Session × FileTree} {journal : Journal}

theorem Runs.keepsClear_of_apart (h : s.Runs tree payload q out journal)
    (hapart : FilesApart tree out.2.2 out.1.backupDir (units out.1.violations)) :
    KeepsClear s.cache tree out.2.2 journal (units out.1.violations) := by
  refine ⟨fun u hu _ before hbefore hnone x hx hplace => ?_, fun u hu _ => hapart.missing u hu⟩
  cases h with
  | refused => cases hu
  | @completed vs c _ hreach =>
    obtain ⟨hstaffed, haccounted⟩ := reaches_crew hreach
    have hviolations : c.work.report.violations = relevant q vs := haccounted.violations
    simp only [conclude, hviolations] at hu hapart
    have hown := Crew.onlyOwn_of_apart hstaffed haccounted hapart hu
    obtain ⟨hfile, -⟩ := hown x (hbefore.subset hx) hplace
    have hmem : x.2 ∈ Journal.about before u.file := Journal.mem_about.mpr (hfile ▸ hx)
    simp [hnone] at hmem

theorem Runs.isDue (h : s.Runs tree payload q out journal) (hcut : out.1.interrupted = false)
    (hclear : KeepsClear s.cache tree out.2.2 journal (units out.1.violations)) :
    out.1.IsDue (Planner.new s.registry q.selected) (s.lintErrors payload) (s.cache.opened tree)
      journal.failures ∧ ∀ x ∈ journal.failures, x.2.IsOfWriting x.1 := by
  unfold lintErrors
  cases h with
  | refused hv =>
    rw [hv]
    refine ⟨⟨fun p => ?_, .refl _, .refl _⟩, by simp [Journal.failures]⟩
    exact iff_of_false (PathSet.not_mem_empty p) fun ⟨⟨u, hu, _⟩, _⟩ => by cases hu
  | completed hv hreach hover =>
    rw [hv]
    have hviolations := (reaches_crew hreach).2.violations
    simp only [conclude, hviolations] at hclear
    exact ⟨Crew.isDue_of_reaches hreach hclear hover hcut,
      Crew.isOfWriting_of_failures hreach hclear⟩

theorem Runs.untouched (h : s.Runs tree payload q out journal) (hdry : q.dryRun = true) :
    out.2.2 = tree ∧ out.1.applied = [] ∧ out.1.modified = ∅ ∧ out.1.backupDir = none := by
  cases h with
  | refused => exact ⟨rfl, rfl, rfl, rfl⟩
  | completed _ hreach =>
    rw [hdry] at hreach
    obtain ⟨htree, hdir⟩ := Crew.untouched_of_reaches hreach
    exact ⟨htree, Crew.applied_of_dry hreach, Crew.modified_of_dry hreach, hdir⟩

theorem Runs.isDue_of_dry (h : s.Runs tree payload q out journal) (hdry : q.dryRun = true)
    (hcut : out.1.interrupted = false) :
    out.1.IsDue (Planner.new s.registry q.selected) (s.lintErrors payload) (s.cache.opened tree)
      [] := by
  have hfacts : KeepsClear s.cache tree out.2.2 journal (units out.1.violations) ∧
      journal.failures = [] := by
    cases h with
    | refused => refine ⟨⟨fun u hu => ?_, fun u hu => ?_⟩, rfl⟩ <;> cases hu
    | completed _ hreach =>
      rw [hdry] at hreach
      exact ⟨Crew.keepsClear_of_dry hreach _ _, Crew.failures_of_dry hreach⟩
  obtain ⟨hclear, hnone⟩ := hfacts
  exact hnone ▸ (h.isDue hcut hclear).1

/-- A dry run has no effect: no file is written or made, nothing is backed up, and the report has no
applied fix and no modified file. If it is not interrupted, it foretells every other run of the same
rules over the same payload and the same files that is not interrupted, under whatever schedule and
with whatever earlier reads of the session: that run has the same violations and processed files, it
applies or skips the fixes that the dry run skips, and it has the same errors besides writes that
fail. The other run must keep clear of the files that it has still to read. -/
theorem dryRun_foretells (h : s.Runs tree payload q out journal) (hdry : q.dryRun = true) :
    (out.2.2 = tree ∧ out.1.applied = [] ∧ out.1.modified = ∅ ∧ out.1.backupDir = none) ∧
    (out.1.interrupted = false →
      ∀ {q' : Request} {out' : Report × Session × FileTree} {journal' : Journal},
        s.Runs tree payload q' out' journal' → q'.selected = q.selected →
        out'.1.interrupted = false →
        KeepsClear s.cache tree out'.2.2 journal' (units out'.1.violations) →
        out.1.IsPlanOf out'.1) := by
  refine ⟨h.untouched hdry, ?_⟩
  intro hcut q' out' journal' h' hselected hcut' hclear
  obtain ⟨hdue, hfailures⟩ := h'.isDue hcut' hclear
  rw [hselected] at hdue
  refine (h.isDue_of_dry hdry hcut).isPlanOf hdue (h.untouched hdry).2.1 ?_ hfailures
  rw [h'.violations_eq, h.violations_eq]
  simp only [relevant, hselected]

end Session

/-- A tree of two documents; one of them is in Latin-1. -/
def FileTree.twoEncodings : FileTree :=
  FileTree.oneDocument.put ["w", "b.adoc"] (.file ⟨#[0x42, 0xE9, 0x0A]⟩)

def Payload.threeAlerts : Text :=
  "\x7b\"a.adoc\":[\x7b\"Check\":\"EntityReference\",\"Line\":1,\"Column\":3," ++
    "\"Match\":\"&amp;\"\x7d],\"b.adoc\":[\x7b\"Check\":\"BlockTitle\",\"Line\":1," ++
    "\"Column\":1,\"Message\":\"→\"\x7d],\"c.adoc\":[\x7b\"Check\":\"BlockTitle\"," ++
    "\"Line\":1,\"Column\":1,\"Message\":\"m\"\x7d]\x7d"

def Payload.twoSpellings : Text :=
  "\x7b\"/w/a.adoc\":[\x7b\"Check\":\"BlockTitle\",\"Line\":1,\"Column\":1," ++
    "\"Message\":\"m\"\x7d],\"a.adoc\":[\x7b\"Check\":\"BlockTitle\",\"Line\":2," ++
    "\"Column\":1,\"Message\":\"m\"\x7d]\x7d"

def Payload.twoNames : Text :=
  "\x7b\"a.adoc\":[\x7b\"Check\":\"EntityReference\",\"Line\":1,\"Column\":3," ++
    "\"Match\":\"&amp;\"\x7d],\"zz\":[\x7b\"Check\":\"BlockTitle\",\"Line\":1," ++
    "\"Column\":1,\"Message\":\"m\"\x7d]\x7d"

def Request.dry : Request := { Request.plain with dryRun := true }

namespace Session

def outcome (s : Session) (tree : FileTree) (payload : Except LintError Text) (q : Request)
    (n : ℕ) : Report × Session × FileTree :=
  let c := s.served tree payload q n
  s.conclude q c.work c.isCutShort

/-- The document in Latin-1 has no byte for the arrow in the comment that is to be put in it. -/
theorem dryRun_foretells_twoEncodings :
    let payload := .ok Payload.threeAlerts
    let out := ofTwoRules.outcome .twoEncodings payload .dry 60
    let out' := ofTwoRules.outcome .twoEncodings payload .plain 60
    out.1.skipped.length = 2 ∧ out.1.errors.length = 1 ∧ out'.1.applied.length = 1 ∧
      out'.1.errors.length = 2 ∧ out.2.2 = .twoEncodings ∧ out.1.IsPlanOf out'.1 := by
  intro payload out out'
  let c := ofTwoRules.served .twoEncodings payload .dry 60
  let c' := ofTwoRules.served .twoEncodings payload .plain 60
  obtain ⟨hok, hover, hcut, hover', hcut', hskipped, herrors, happlied, herrors'⟩ :
      (ofTwoRules.violations payload).isOk ∧ c.isOver ∧ out.1.interrupted = false ∧ c'.isOver ∧
      out'.1.interrupted = false ∧ out.1.skipped.length = 2 ∧ out.1.errors.length = 1 ∧
      out'.1.applied.length = 1 ∧ out'.1.errors.length = 2 := by
    decide +kernel
  have hruns' : ofTwoRules.Runs .twoEncodings payload .plain out' c'.journal :=
    runs_served hok hover'
  have hapart : FilesApart .twoEncodings out'.2.2 out'.1.backupDir (units out'.1.violations) := by
    obtain ⟨hdir, hplaces, hcopies, hmissing⟩ :
        out'.1.backupDir = some ("/w/tmp/docfix-backup-aaaaaa" : Path) ∧
        (∀ u ∈ units out'.1.violations, ∀ v ∈ units out'.1.violations,
          locate ["w"] u.file = locate ["w"] v.file → u.file = v.file) ∧
        (∀ u ∈ units out'.1.violations,
          ¬locate ["w"] "/w/tmp/docfix-backup-aaaaaa" <+: locate ["w"] u.file) ∧
        ∀ u ∈ units out'.1.violations, ∀ l ∈ way ["w"] u.file,
          FileTree.twoEncodings.get? l = none → out'.2.2.get? l = none := by
      decide +kernel
    exact .of_dir hdir hplaces hcopies hmissing
  obtain ⟨⟨htree, -⟩, hforetells⟩ := dryRun_foretells (runs_served hok hover) rfl
  exact ⟨hskipped, herrors, happlied, herrors', htree,
    hforetells hcut hruns' rfl hcut' (hruns'.keepsClear_of_apart hapart)⟩

/-- The reports of a dry run and of one that is not dry from the same state, neither of them
interrupted. -/
structure Compares (s : Session) (tree : FileTree) (payload : Except LintError Text)
    (plan r : Report) : Prop where
  dry : ∃ q out journal, s.Runs tree payload q out journal ∧ q.dryRun = true ∧
    q.selected = none ∧ out.1 = plan ∧ plan.interrupted = false
  real : ∃ q out journal, s.Runs tree payload q out journal ∧ q.dryRun = false ∧
    q.selected = none ∧ out.1 = r ∧ r.interrupted = false

theorem compares_outcome {s : Session} {tree : FileTree} {payload : Except LintError Text} {n : ℕ}
    (hok : (s.violations payload).isOk)
    (hdry : (s.served tree payload .dry n).isOver ∧
      (s.outcome tree payload .dry n).1.interrupted = false)
    (hreal : (s.served tree payload .plain n).isOver ∧
      (s.outcome tree payload .plain n).1.interrupted = false) :
    s.Compares tree payload (s.outcome tree payload .dry n).1
      (s.outcome tree payload .plain n).1 where
  dry := ⟨_, _, _, runs_served hok hdry.1, rfl, rfl, rfl, hdry.2⟩
  real := ⟨_, _, _, runs_served hok hreal.1, rfl, rfl, rfl, hreal.2⟩

/-- A run can come in its own way. When it comes to the second name of a document, it finds there
the comment that it has put above the first line, and plans none above the second. Where a file is
missing, it can have made its backup directory. -/
theorem dryRun_misled :
    (¬∀ (s : Session) (tree : FileTree) (payload : Except LintError Text) (plan r : Report),
      s.Compares tree payload plan r → plan.skipped.Perm (r.applied ++ r.skipped)) ∧
    ¬∀ (s : Session) (tree : FileTree) (payload : Except LintError Text) (plan r : Report),
      s.Compares tree payload plan r → ∃ failures,
        r.errors.Perm (plan.errors ++ Report.failureTexts failures) ∧
          ∀ x ∈ failures, x.2.IsOfWriting x.1 := by
  constructor
  · intro h
    let payload : Except LintError Text := .ok Payload.twoSpellings
    let out := ofTwoRules.outcome .twoLines payload .dry 40
    let out' := ofTwoRules.outcome .twoLines payload .plain 40
    obtain ⟨hok, hdry, hreal, hskipped, hfixes⟩ : (ofTwoRules.violations payload).isOk ∧
        ((ofTwoRules.served .twoLines payload .dry 40).isOver ∧ out.1.interrupted = false) ∧
        ((ofTwoRules.served .twoLines payload .plain 40).isOver ∧ out'.1.interrupted = false) ∧
        out.1.skipped.length = 2 ∧ (out'.1.applied ++ out'.1.skipped).length = 1 := by
      decide +kernel
    have hlength := (h _ _ _ _ _ (compares_outcome hok hdry hreal)).length_eq
    rw [hskipped, hfixes] at hlength
    cases hlength
  · intro h
    let s := new (Registry.ofList [Rule.entityReference]) { backupRoot := some "zz" }
    let payload : Except LintError Text := .ok Payload.twoNames
    let out := s.outcome .oneDocument payload .dry 40
    let out' := s.outcome .oneDocument payload .plain 40
    obtain ⟨hok, hdry, hreal, herrors, herrors'⟩ : (s.violations payload).isOk ∧
        ((s.served .oneDocument payload .dry 40).isOver ∧ out.1.interrupted = false) ∧
        ((s.served .oneDocument payload .plain 40).isOver ∧ out'.1.interrupted = false) ∧
        out.1.errors = ["zz: failed to query resolved metadata `zz`: " ++
          "No such file or directory (os error 2)"] ∧
        out'.1.errors = ["zz: failed to read from file `zz`: Is a directory (os error 21)"] := by
      decide +kernel
    obtain ⟨failures, hperm, -⟩ := h _ _ _ _ _ (compares_outcome hok hdry hreal)
    rw [herrors, herrors'] at hperm
    have hmem := hperm.mem_iff.mpr (List.mem_append_left _ (List.mem_singleton_self _))
    exact absurd (List.mem_singleton.mp hmem) (by decide)

end Session

end Errata
