import Errata.Proofs.Run.DryRun
import Errata.Proofs.Run.Failures

/-!
# What an interrupted run leaves

When a run is over, each file has been processed, could not be read, or was left out. The report has
nothing on a file that was left out. Such a file is untouched too, if no other path of the run leads
to it and the backup directory keeps clear of it.
-/
namespace Errata

open FileTree

/-- What has become of a file in a run. -/
inductive Fate where
  | processed
  | unreadable
  | untouched

/-- The report has nothing on the file at `p`: its fixes and errors come from the other files. -/
structure Unrecorded (registry : Registry) (out : Report × Session × FileTree) (journal : Journal)
    (p : Path) : Prop where
  unprocessed : p ∉ out.1.processed.toList
  applied : out.1.applied.Perm ((journal.aside p).flatMap (·.2.applied))
  skipped : out.1.skipped.Perm ((journal.aside p).flatMap (·.2.skipped))
  errors : out.1.errors.Perm (journal.aside p).errors
  /-- No fix in the report names the file. -/
  fixes : registry.KeepsViolations → ∀ f ∈ out.1.fixes, f.violation.file.components ≠ p.components

/-- The file at `p` could not be read, and besides the errors from the other files the report has
one that says so. -/
structure Unreadable (limit : ℕ) (out : Report × Session × FileTree) (journal : Journal)
    (p : Path) : Prop where
  unprocessed : p ∉ out.1.processed.toList
  error : ∃ files e, Document.read files limit p = .error e ∧
    out.1.errors.Perm ((p.text ++ ": " ++ e.message) :: (journal.aside p).errors)

theorem Unrecorded.not_unreadable {registry : Registry} {limit : ℕ}
    {out : Report × Session × FileTree} {journal : Journal} {p : Path}
    (h : Unrecorded registry out journal p) : ¬Unreadable limit out journal p := by
  intro hunreadable
  obtain ⟨_, _, -, herrors⟩ := hunreadable.error
  have hlength := (herrors.symm.trans h.errors).length_eq
  simp at hlength

/-- This has become of the file at `p`. -/
def Fate.Holds (s : Session) (tree : FileTree) (out : Report × Session × FileTree)
    (journal : Journal) (p : Path) : Fate → Prop
  | .processed => p ∈ out.1.processed.toList
  | .unreadable => Unreadable s.cache.limit out journal p
  | .untouched => Unrecorded s.registry out journal p ∧ out.2.2.find p = tree.find p

namespace Crew

variable {s : Session} {tree : FileTree} {q : Request} {vs : List Violation} {c : Crew}
  {u : FileUnit} {cutShort : Bool}

section

variable
  (hreach : Reaches (Planner.new s.registry q.selected) q.dryRun (s.crew tree q vs) c)
  (hu : u ∈ Session.units vs)

include hreach hu

theorem unrecorded_of_leavesOut (hleft : c.LeavesOut u.file) :
    Unrecorded s.registry (s.conclude q c.work cutShort) c.journal u.file := by
  obtain ⟨h, ha⟩ := Session.reaches_crew hreach
  obtain ⟨happlied, hskipped, herrors⟩ := report_perm_aside hreach u.file
  have hown : ∀ {α : Type} (f : Event → List α), (∀ d, f (.read d) = []) → f .dropped = [] →
      (c.journal.about u.file).flatMap f = [] := by
    intro α f hread hdropped
    refine List.flatMap_eq_nil_iff.mpr fun e he => ?_
    rcases hleft.mem_about he with ⟨d, rfl⟩ | rfl
    · exact hread d
    · exact hdropped
  constructor
  case unprocessed =>
    refine (processed_iff h ha).not.mpr ?_
    rw [List.any_eq_true]
    rintro ⟨e, he, hprocesses⟩
    rcases hleft.mem_about he with ⟨d, rfl⟩ | rfl <;> cases hprocesses
  case applied => rwa [hown Event.applied (fun _ => rfl) rfl] at happlied
  case skipped => rwa [hown Event.skipped (fun _ => rfl) rfl] at hskipped
  case errors => rwa [hown (Event.errors u.file) (fun _ => rfl) rfl] at herrors
  case fixes =>
    intro hkeeps f hf hcomponents
    have hfixes := Report.noteAll_fixes (s.work tree q vs).report c.journal
    rw [← ha.report] at hfixes
    obtain ⟨⟨p, e⟩, hx, hfx⟩ := List.mem_flatMap.mp (hfixes.mem_iff.mp hf)
    have hfile := components_of_fix hreach hkeeps hx hfx
    obtain rfl := spelled_once (h.known_unit _ hx) ⟨u, hu, rfl⟩ (hfile.symm.trans hcomponents)
    rcases hleft.mem_about (Journal.mem_about.mpr hx) with ⟨d, rfl⟩ | rfl <;> cases hfx

theorem unreadable_of_unread {t : Task} (ht : t ∈ c.tasks) (hunit : t.unit = u)
    (hk : t.stage = .ended .failed) {e : DocumentError}
    (hunread : c.journal.about u.file = [.unread e]) :
    Unreadable s.cache.limit (s.conclude q c.work cutShort) c.journal u.file := by
  subst hunit
  obtain ⟨h, ha⟩ := Session.reaches_crew hreach
  obtain ⟨-, -, herrors⟩ := report_perm_aside hreach t.unit.file
  obtain ⟨e', hfails⟩ := Staffed.fails_of_reaches hreach ht hk
  have hone := hfails.errors_eq
  constructor
  case unprocessed => simp [Session.conclude, processed_iff h ha, hunread, Event.processes]
  case error =>
    rw [hunread] at hfails
    cases hfails with
    | unread hread =>
      rw [hone] at herrors
      exact ⟨_, _, hread, herrors⟩

theorem unrecorded_iff (hover : c.isOver) :
    Unrecorded s.registry (s.conclude q c.work cutShort) c.journal u.file ↔
      c.LeavesOut u.file := by
  obtain ⟨h, ha⟩ := Session.reaches_crew hreach
  refine ⟨fun hunrecorded => ?_, unrecorded_of_leavesOut hreach hu⟩
  rcases h.end_cases hover hu with hp | ⟨t, ht, hunit, hk, e, hunread⟩ | hleft
  · exact absurd ((processed_iff h ha).mpr hp) hunrecorded.unprocessed
  · exact absurd (unreadable_of_unread hreach hu ht hunit hk hunread) hunrecorded.not_unreadable
  · exact hleft

theorem find_of_leavesOut
    (hapart : FilesApart tree c.work.tree c.work.backups.dir (Session.units vs))
    (hleft : c.LeavesOut u.file) : c.work.tree.find u.file = tree.find u.file := by
  obtain ⟨h, ha⟩ := Session.reaches_crew hreach
  refine find_kept h ha hapart hu fun o encoding hw => ?_
  rcases hleft.mem_about hw with ⟨d, he⟩ | he <;> cases he

theorem existsUnique_fate (hover : c.isOver)
    (hapart : FilesApart tree c.work.tree c.work.backups.dir (Session.units vs)) :
    ∃! fate : Fate, fate.Holds s tree (s.conclude q c.work cutShort) c.journal u.file := by
  obtain ⟨h, ha⟩ := Session.reaches_crew hreach
  rcases h.end_cases hover hu with hp | ⟨t, ht, hunit, hk, e, hunread⟩ | hleft
  · have hprocessed := (processed_iff h ha).mpr hp
    refine ⟨.processed, hprocessed, ?_⟩
    rintro (_ | _ | _) hother
    · rfl
    · exact absurd hprocessed hother.unprocessed
    · exact absurd hprocessed hother.1.unprocessed
  · have hunreadable : Unreadable s.cache.limit (s.conclude q c.work cutShort) c.journal u.file :=
      unreadable_of_unread hreach hu ht hunit hk hunread
    refine ⟨.unreadable, hunreadable, ?_⟩
    rintro (_ | _ | _) hother
    · exact absurd hother hunreadable.unprocessed
    · rfl
    · exact absurd hunreadable hother.1.not_unreadable
  · have hunrecorded : Unrecorded s.registry (s.conclude q c.work cutShort) c.journal u.file :=
      unrecorded_of_leavesOut hreach hu hleft
    refine ⟨.untouched, ⟨hunrecorded, find_of_leavesOut hreach hu hapart hleft⟩, ?_⟩
    rintro (_ | _ | _) hother
    · exact absurd hother hunrecorded.unprocessed
    · exact absurd hother hunrecorded.not_unreadable
    · rfl

end

end Crew

/-- At any moment of a run the units that have started are the first ones, each once, no more are
under way than there are workers, and the run can come to its end. There it counts as interrupted
exactly if the report has nothing on some file, and that happens only if the interrupt has been set.
If moreover the files are apart, every file has exactly one fate, and the run counts as interrupted
exactly if some file is untouched. -/
theorem Session.interrupted_cleanly {s : Session} {tree : FileTree} {q : Request}
    {vs : List Violation} {c : Crew}
    (hreach : Crew.Reaches (Planner.new s.registry q.selected) q.dryRun (s.crew tree q vs) c) :
    let out := s.conclude q c.work c.isCutShort
    (∃ started, units vs = started ++ c.waiting ∧ (c.tasks.map Task.unit).Perm started) ∧
    (c.tasks.map (·.unit.file)).Nodup ∧
    c.running.length ≤ s.settings.workersFor (units vs).length ∧
    (∃ c', Crew.Reaches (Planner.new s.registry q.selected) q.dryRun c c' ∧ c'.isOver) ∧
    (c.isOver →
      (out.1.interrupted ↔ ∃ u ∈ units vs, Unrecorded s.registry out c.journal u.file) ∧
      (out.2.1.interrupt = false →
        ∀ u ∈ units vs, ¬Unrecorded s.registry out c.journal u.file) ∧
      (FilesApart tree out.2.2 out.1.backupDir (units vs) →
        (∀ u ∈ units vs, ∃! fate : Fate, fate.Holds s tree out c.journal u.file) ∧
        (out.1.interrupted ↔
          ∃ u ∈ units vs, Fate.untouched.Holds s tree out c.journal u.file) ∧
        (out.2.1.interrupt = false →
          ∀ u ∈ units vs, ¬Fate.untouched.Holds s tree out c.journal u.file))) := by
  intro out
  have hstaffed := (reaches_crew hreach).1
  have hmanned := Crew.Manned.of_reaches hreach
  have hworkers : 0 < s.settings.workersFor (units vs).length := by
    simp only [Settings.workersFor, Settings.workerCap]
    omega
  obtain ⟨hstarted, honce⟩ := hstaffed.exists_started
  refine ⟨hstarted, honce, Nat.le_trans (Nat.le_add_right _ _) hmanned.load,
    Crew.exists_over c, fun hover => ?_⟩
  have hunrecorded : ∀ u ∈ units vs,
      Unrecorded s.registry out c.journal u.file ↔ c.LeavesOut u.file :=
    fun u hu => Crew.unrecorded_iff hreach hu hover
  have hcut : out.1.interrupted ↔ ∃ u ∈ units vs, Unrecorded s.registry out c.journal u.file :=
    (hstaffed.isCutShort_iff hover).trans
      (exists_congr fun u => and_congr_right fun hu => (hunrecorded u hu).symm)
  have hclear : out.2.1.interrupt = false →
      ∀ u ∈ units vs, ¬Unrecorded s.registry out c.journal u.file := by
    intro hclear u hu hnothing
    have hset := hmanned.interrupt_of_isCutShort hworkers hover (hcut.mpr ⟨u, hu, hnothing⟩)
    exact Bool.noConfusion (hclear.symm.trans hset)
  refine ⟨hcut, hclear, fun hapart => ⟨fun u hu => ?_, ?_, fun hi u hu hfate => ?_⟩⟩
  · exact Crew.existsUnique_fate hreach hu hover hapart
  · refine hcut.trans (exists_congr fun u => and_congr_right fun hu => ?_)
    refine ⟨fun hnothing => ⟨hnothing, ?_⟩, fun hfate => hfate.1⟩
    exact Crew.find_of_leavesOut hreach hu hapart ((hunrecorded u hu).mp hnothing)
  · exact hclear hi u hu hfate.1

/-- A rule that asks to stop when it plans for a file of this name. -/
def Rule.until (name : Text) (rule : Rule) : Rule :=
  { rule with interrupts := fun v => v.file.fileName? == some name }

namespace Session

/-- One worker, who meets the interrupt in the second of two files. -/
theorem interrupted_cleanly_in_second :
    let s := new (Registry.ofList [Rule.entityReference.until "a.adoc"])
      { workingDir := "docs", maxWorkers := 1 }
    let tree := FileTree.twoDocuments "b.adoc"
    let vs := ((s.violations (.ok (Payload.twoAlerts "b.adoc"))).toOption).getD []
    let c := s.served tree (.ok (Payload.twoAlerts "b.adoc")) .plain 40
    let out := s.conclude .plain c.work c.isCutShort
    c.isOver ∧ FilesApart tree out.2.2 out.1.backupDir (units vs) ∧
      out.1.processed.toList = [("b.adoc" : Path)] ∧
      (∀ u ∈ units vs, ∃! fate : Fate, fate.Holds s tree out c.journal u.file) ∧
      ∃ u ∈ units vs, Fate.untouched.Holds s tree out c.journal u.file := by
  intro s tree vs c out
  obtain ⟨hover, hprocessed, hcut, hdir, hplaces, hcopies, hmissing⟩ :
      c.isOver ∧ out.1.processed.toList = [("b.adoc" : Path)] ∧ out.1.interrupted ∧
      out.1.backupDir = some ("/w/tmp/docfix-backup-aaaaaa" : Path) ∧
      (∀ u ∈ units vs, ∀ v ∈ units vs,
        locate tree.current u.file = locate tree.current v.file → u.file = v.file) ∧
      (∀ u ∈ units vs,
        ¬locate tree.current "/w/tmp/docfix-backup-aaaaaa" <+: locate tree.current u.file) ∧
      ∀ u ∈ units vs, ∀ l ∈ way tree.current u.file,
        tree.get? l = none → out.2.2.get? l = none := by
    decide +kernel
  have hapart : FilesApart tree out.2.2 out.1.backupDir (units vs) :=
    .of_dir hdir hplaces hcopies hmissing
  have hreach : Crew.Reaches (Planner.new s.registry Request.plain.selected) Request.plain.dryRun
      (s.crew tree .plain vs) c := Crew.reaches_proceed 40 _
  obtain ⟨-, -, -, -, hend⟩ := interrupted_cleanly hreach
  obtain ⟨-, -, hfates⟩ := hend hover
  obtain ⟨hone, hinterrupted, -⟩ := hfates hapart
  exact ⟨hover, hapart, hprocessed, hone, hinterrupted.mp hcut⟩

/-- A file that was left out need not be untouched. The backup directory is made where one is
missing, and the worker never comes to it; or the second name of a document is dropped when the
document has been written under its first one. -/
theorem interrupted_astray :
    (¬∀ (s : Session) (tree : FileTree) (payload : Except LintError Text) (q : Request)
        (out : Report × Session × FileTree) (journal : Journal),
      s.Runs tree payload q out journal →
        ∀ u ∈ units out.1.violations, ∃ fate : Fate, fate.Holds s tree out journal u.file) ∧
    ¬∀ (s : Session) (tree : FileTree) (payload : Except LintError Text) (q : Request)
        (out : Report × Session × FileTree) (journal : Journal),
      s.Runs tree payload q out journal → out.1.interrupted →
        ∃ u ∈ units out.1.violations, Fate.untouched.Holds s tree out journal u.file := by
  constructor
  · intro h
    let s := new (Registry.ofList
      [Rule.entityReference, (Rule.flag "BlockTitle" []).until "b.adoc"])
      { maxWorkers := 1, backupRoot := some "c.adoc" }
    let payload : Except LintError Text := .ok Payload.threeAlerts
    let c := s.served .twoEncodings payload .plain 60
    let out := s.outcome .twoEncodings payload .plain 60
    obtain ⟨hok, hover, hunit, hprocessed, herrors, hfound⟩ : (s.violations payload).isOk ∧
        c.isOver ∧ (∃ u ∈ units out.1.violations, u.file = "c.adoc") ∧
        out.1.processed.toList = [("a.adoc" : Path)] ∧ out.1.errors = [] ∧
        out.2.2.find "c.adoc" = .ok .directory := by
      decide +kernel
    obtain ⟨u, hu, hfile⟩ := hunit
    obtain ⟨fate, hfate⟩ := h _ _ _ _ _ _ (runs_served hok hover) u hu
    rw [hfile] at hfate
    cases fate with
    | processed =>
      have hmem : ("c.adoc" : Path) ∈ out.1.processed.toList := hfate
      rw [hprocessed] at hmem
      exact absurd (List.mem_singleton.mp hmem) (by decide)
    | unreadable =>
      obtain ⟨_, _, -, hperm⟩ := hfate.error
      have hlength := hperm.length_eq
      rw [show (s.conclude .plain c.work c.isCutShort).1.errors = [] from herrors] at hlength
      cases hlength
    | untouched =>
      have hkept : out.2.2.find "c.adoc" = FileTree.twoEncodings.find "c.adoc" := hfate.2
      rw [hfound] at hkept
      exact absurd hkept (by decide)
  · intro h
    let s := new (Registry.ofList
      [{ Rule.flag "BlockTitle" [] with interrupts := (·.line == 2) }]) { maxWorkers := 1 }
    let payload : Except LintError Text := .ok Payload.twoSpellings
    let c := s.served .twoLines payload .plain 40
    let out := s.outcome .twoLines payload .plain 40
    obtain ⟨hok, hover, hcut, hchanged⟩ : (s.violations payload).isOk ∧ c.isOver ∧
        out.1.interrupted ∧
        ∀ u ∈ units out.1.violations, out.2.2.find u.file ≠ FileTree.twoLines.find u.file := by
      decide +kernel
    obtain ⟨u, hu, -, hkept⟩ := h _ _ _ _ _ _ (runs_served hok hover) hcut
    exact hchanged u hu hkept

end Session

end Errata
