import Errata.Proofs.Run.Independence
import Errata.Proofs.Run.Plans

/-!
# Units that come to nothing

A unit fails if its file gives no document or takes no edited text back, and it is dropped if an
interrupt is seen before its fixes are made. The second kind of failure comes late: the file has
been copied by then and the report calls it processed. Still the file is left as it was, no fix
counts as made, and the report has one error for a unit that failed and none for one that was
dropped.
-/
namespace Errata

open FileTree

namespace Document

theorem ne_notEncodable_of_read {t : FileTree} {limit : ℕ} {p q : Path} {encoding : Encoding} :
    Document.read t limit p ≠ .error (.notEncodable q encoding) := by
  unfold Document.read
  split
  · next hsize =>
    rintro ⟨⟩
    unfold checkSize at hsize
    repeat' split at hsize
    all_goals simp [DocumentError.ofCause] at hsize
  · unfold fetch
    repeat' split
    all_goals simp [DocumentError.ofCause]

theorem encode?_of_write {t : FileTree} {p q : Path} {text : Text} {encoding e : Encoding}
    (h : Document.write t p text encoding = .error (.notEncodable q e)) :
    encoding.encode? text = none := by
  unfold Document.write at h
  split at h
  · assumption
  · split at h <;> simp [DocumentError.ofCause] at h

end Document

/-- What a unit that has failed has done, and the error it met. The file, as it was at that moment,
gave no document or took no edited text back. -/
inductive FileUnit.Fails (planner : Planner) (limit : ℕ) (u : FileUnit) :
    List Event → DocumentError → Prop
  | unread {files : FileTree} {e : DocumentError}
      (h : Document.read files limit u.file = .error e) : Fails planner limit u [.unread e] e
  | unwritten {files : FileTree} {d : Document} {place : Except BackupError Path}
      {e : DocumentError}
      (h : Document.write files u.file (u.prepared planner d).outcome.content d.encoding =
        .error e) :
      Fails planner limit u
        [.read d, .copied place, .unwritten (u.prepared planner d).outcome e] e

def Journal.aside (j : Journal) (p : Path) : Journal := j.filter (·.1 ≠ p)

theorem Journal.flatMap_aside {α : Type} (f : Path → Event → List α) (j : Journal) (p : Path) :
    (j.flatMap fun x => f x.1 x.2).Perm
      ((j.about p).flatMap (f p) ++ (j.aside p).flatMap fun x => f x.1 x.2) := by
  have hsplit := (List.filter_append_perm (·.1 = p) j).symm.flatMap_right fun x => f x.1 x.2
  rw [List.flatMap_append] at hsplit
  have hown : ((j.filter (·.1 = p)).flatMap fun x => f x.1 x.2) = (j.about p).flatMap (f p) := by
    rw [about, List.flatMap_map]
    refine List.flatMap_congr fun x hx => ?_
    obtain rfl : x.1 = p := by simpa using (List.mem_filter.mp hx).2
    rfl
  have haside : (j.filter fun x => !decide (x.1 = p)) = j.aside p := by
    simp [aside]
  rwa [hown, haside] at hsplit

def Stage.isFailed : Stage → Bool
  | .ended .failed => true
  | _ => false

theorem Stage.eq_of_isFailed {st : Stage} (h : st.isFailed) : st = .ended .failed := by
  unfold isFailed at h
  split at h
  · rfl
  · cases h

/-- What is known of a unit at a stage about why it fails. -/
def Stage.IsCaused (planner : Planner) (limit : ℕ) (u : FileUnit) (events : List Event) :
    Stage → Prop
  | .refused e => ∃ files, Document.read files limit u.file = .error e
  | .ended .failed => ∃ e, u.Fails planner limit events e
  | _ => True

theorem History.isCaused_advance {planner : Planner} {dryRun : Bool} {u : FileUnit} {st : Stage}
    {events : List Event} (h : History planner dryRun u st events) {limit : ℕ}
    (hcaused : st.IsCaused planner limit u events) {w : Work} (hlimit : w.cache.limit = limit)
    {a : Advance} (ha : w.advance planner dryRun u st = some a) :
    a.stage.IsCaused planner limit u (events ++ a.events) := by
  cases h with
  | begun =>
    simp only [Work.advance] at ha
    split at ha <;> obtain rfl := Option.some.inj ha
    · next hread =>
      exact ⟨w.tree, hlimit ▸ Cache.error_of_read hread⟩
    · trivial
  | refused e =>
    obtain rfl := Option.some.inj ha
    obtain ⟨files, hread⟩ := hcaused
    exact ⟨e, .unread hread⟩
  | loaded d =>
    obtain rfl := Option.some.inj ha
    trivial
  | planned d =>
    simp only [Work.advance] at ha
    split at ha <;> obtain rfl := Option.some.inj ha <;> trivial
  | cleared d =>
    simp only [Work.advance] at ha
    split at ha <;> obtain rfl := Option.some.inj ha <;> trivial
  | copied d place =>
    simp only [Work.advance] at ha
    split at ha
    · obtain rfl := Option.some.inj ha
      trivial
    · split at ha <;> obtain rfl := Option.some.inj ha
      · trivial
      · next hwrite => exact ⟨_, .unwritten hwrite⟩
  | unread | dropped | left | unchanged | written | unwritten => cases ha

namespace Crew

variable {planner : Planner} {dryRun : Bool} {vs : List Violation} {c c' : Crew}

/-- What the first stage has and every step of a unit keeps, all units have. -/
theorem Staffed.forall_tasks {units : List FileUnit} (hfiles : (units.map FileUnit.file).Nodup)
    {limit : ℕ} {holds : FileUnit → Stage → List Event → Prop} (hbegun : ∀ u, holds u .begun [])
    (hadvance : ∀ {u : FileUnit} {st : Stage} {events : List Event} {w : Work} {a : Advance},
      History planner dryRun u st events → holds u st events → w.cache.limit = limit →
      w.advance planner dryRun u st = some a → holds u a.stage (events ++ a.events))
    (hreach : Reaches planner dryRun c c') (h : Staffed planner dryRun units c)
    (hlimit : c.work.cache.limit = limit)
    (hc : ∀ t ∈ c.tasks, holds t.unit t.stage (c.journal.about t.unit.file)) :
    c'.work.cache.limit = limit ∧
      ∀ t ∈ c'.tasks, holds t.unit t.stage (c'.journal.about t.unit.file) := by
  induction hreach with
  | refl => exact ⟨hlimit, hc⟩
  | @tail b c' hreach hstep ih =>
    obtain ⟨hlimit, hb⟩ := ih
    have hstaffed : Staffed planner dryRun units b := h.reaches hreach hfiles
    refine ⟨(limit_of_step hstep).trans hlimit, ?_⟩
    cases hstep with
    | interrupt | skip => exact hb
    | @start n u us _ _ hw =>
      intro t ht
      rw [tasks, ← List.append_assoc] at ht
      rcases List.mem_append.mp ht with ht | ht
      · exact hb t ht
      · obtain rfl := List.mem_singleton.mp ht
        have hnone : b.journal.about u.file = [] := hstaffed.unstarted hfiles (by simp [hw])
        rw [hnone]
        exact hbegun u
    | join _ hr => exact fun t ht => hb t ((tasks_join_perm hr).mem_iff.mp ht)
    | @advance before after u st a hr _ ha =>
      intro t ht
      change holds t.unit t.stage ((b.journal ++ a.events.map (u.file, ·)).about t.unit.file)
      rw [Journal.about_append]
      rcases List.mem_cons.mp ((tasks_perm rfl).mem_iff.mp ht) with rfl | ht
      · have hmem : ⟨u, st⟩ ∈ b.tasks := (tasks_perm hr).mem_iff.mpr List.mem_cons_self
        have hhistory := hstaffed.history _ hmem
        have hold := hb _ hmem
        rw [Journal.about_self]
        exact hadvance hhistory hold hlimit ha
      · rw [Journal.about_of_ne (hstaffed.file_ne hfiles hr ht), List.append_nil]
        exact hb t ((tasks_perm hr).mem_iff.mpr (List.mem_cons_of_mem _ ht))

theorem Staffed.fails_of_reaches {s : Session} {tree : FileTree} {q : Request}
    (hreach : Reaches planner dryRun (s.crew tree q vs) c) {t : Task} (ht : t ∈ c.tasks)
    (hk : t.stage = .ended .failed) :
    ∃ e, t.unit.Fails planner s.cache.limit (c.journal.about t.unit.file) e := by
  have hcaused := (forall_tasks (Session.nodup_files vs) (fun _ => trivial)
    (fun hhistory hcaused hlimit ha => hhistory.isCaused_advance hcaused hlimit ha) hreach
    (Session.reaches_crew .refl).1 rfl (by simp [tasks, Session.crew])).2 t ht
  rwa [hk] at hcaused

end Crew

namespace FileUnit.Fails

variable {planner : Planner} {limit : ℕ} {u : FileUnit} {events : List Event} {e : DocumentError}

theorem errors_eq (h : u.Fails planner limit events e) :
    events.flatMap (Event.errors u.file) = [u.file.text ++ ": " ++ e.message] := by
  cases h <;> simp [Event.errors, Event.error?]

theorem skipped_perm (h : u.Fails planner limit events e) {d : Document} (hd : .read d ∈ events) :
    (events.flatMap Event.skipped).Perm (u.prepared planner d).fixes := by
  cases h with
  | unread => simp at hd
  | @unwritten _ d' =>
    obtain rfl : d = d' := by simpa using hd
    simpa [Event.skipped] using
      List.perm_append_comm.trans (u.prepared planner d).outcome_perm

/-- Only an edited text with a wide character cannot be re-encoded, and only as Latin-1. -/
theorem of_notEncodable {q : Path} {encoding : Encoding}
    (h : u.Fails planner limit events (.notEncodable q encoding)) :
    ∃ d, .read d ∈ events ∧ d.encoding = .latin1 ∧
      ∃ c ∈ (u.prepared planner d).outcome.content, 256 ≤ c.toNat := by
  cases h with
  | unread hread => exact absurd hread Document.ne_notEncodable_of_read
  | @unwritten _ d _ _ hwrite =>
    obtain ⟨hlatin, hwide⟩ := Encoding.encode?_eq_none_iff.mp (Document.encode?_of_write hwrite)
    exact ⟨d, by simp, hlatin, hwide⟩

end FileUnit.Fails

theorem Event.mem_fixes_of_applied {e : Event} {f : Fix} (h : f ∈ e.applied) : f ∈ e.fixes := by
  cases e <;> simp_all [applied, fixes]

namespace History

variable {planner : Planner} {dryRun : Bool} {u : FileUnit} {events : List Event}

theorem nothing_of_ended {k : Completion} (h : History planner dryRun u (.ended k) events)
    (hne : k ≠ .done) : ∀ e ∈ events, e.applied = [] ∧ e.writes = false := by
  cases h with
  | unread | dropped | unwritten => simp [Event.applied, Event.writes]
  | left | unchanged | written => exact absurd rfl hne

theorem errors_of_interrupted (h : History planner dryRun u (.ended .interrupted) events) :
    events.flatMap (Event.errors u.file) = [] := by
  cases h
  rfl

theorem mem_fixes_of_event {st : Stage} (h : History planner dryRun u st events) {e : Event}
    (he : e ∈ events) {f : Fix} (hf : f ∈ e.fixes) : ∃ d, f ∈ (u.prepared planner d).fixes := by
  cases h with
  | begun | refused => cases he
  | unread | loaded | planned | cleared =>
    obtain rfl := List.mem_singleton.mp he
    cases hf
  | dropped | copied => rcases List.mem_pair.mp he with rfl | rfl <;> cases hf
  | left d | unchanged d | written d | unwritten d =>
    refine ⟨d, ?_⟩
    have hperm := (u.prepared planner d).outcome_perm.mem_iff (a := f)
    simp only [List.mem_cons, List.not_mem_nil, or_false] at he
    rcases he with rfl | rfl | rfl <;> first | cases hf | exact hf | exact hperm.mp hf

end History

/-- Unless it writes its file, nothing that a unit does changes what its file holds. A copy that
lands on the file itself puts back what is there. -/
theorem Event.files_replay_self {current : Location} {p : Path} {e : Event}
    (h : e.writes = false) (s : Scene) :
    (e.replay current s p).files (locate current p) = s.files (locate current p) := by
  cases e with
  | copied place =>
    cases place with
    | error e => rfl
    | ok target =>
      by_cases heq : locate current p = locate current target
      · simp [replay, heq]
      · exact Function.update_of_ne heq _ _
  | written => cases h
  | _ => rfl

namespace Crew

variable {s : Session} {tree : FileTree} {q : Request} {vs : List Violation} {dryRun : Bool}
  {c : Crew}

/-- What the report lists is what the events about one file have added, and what those about the
others have. -/
theorem report_perm_aside {planner : Planner}
    (hreach : Reaches planner dryRun (s.crew tree q vs) c) (p : Path) :
    c.work.report.applied.Perm ((c.journal.about p).flatMap Event.applied ++
        (c.journal.aside p).flatMap (·.2.applied)) ∧
      c.work.report.skipped.Perm ((c.journal.about p).flatMap Event.skipped ++
        (c.journal.aside p).flatMap (·.2.skipped)) ∧
      c.work.report.errors.Perm ((c.journal.about p).flatMap (Event.errors p) ++
        (c.journal.aside p).errors) := by
  have haccounted := (Session.reaches_crew hreach).2
  rw [haccounted.report, Report.noteAll_applied, Report.noteAll_skipped, Report.noteAll_errors,
    Journal.errors_eq_flatMap, Journal.errors_eq_flatMap]
  exact ⟨Journal.flatMap_aside (fun _ => Event.applied) c.journal p,
    Journal.flatMap_aside (fun _ => Event.skipped) c.journal p,
    Journal.flatMap_aside Event.errors c.journal p⟩

theorem bytes_of_kept {planner : Planner} (hreach : Reaches planner dryRun (s.crew tree q vs) c)
    {p : Path}
    (hkept : ∀ e ∈ c.journal.about p, ∀ scene : Scene,
      (e.replay tree.current scene p).files (locate tree.current p) =
        scene.files (locate tree.current p)) :
    c.work.tree.fileAt? (locate tree.current p) = tree.fileAt? (locate tree.current p) ∨
      ∃ x ∈ c.journal, x.1 ≠ p ∧ x.2.place? tree.current x.1 = some (locate tree.current p) := by
  by_cases hx : ∃ x ∈ c.journal, x.1 ≠ p ∧
      x.2.place? tree.current x.1 = some (locate tree.current p)
  · exact .inr hx
  · push Not at hx
    have hscene := (Session.reaches_crew hreach).2.scene
    refine .inl ((congrFun (congrArg Scene.files hscene) _).trans ?_)
    refine Journal.files_replay_of_events _ fun x hmem scene => ?_
    obtain ⟨r, e⟩ := x
    by_cases hfile : r = p
    · obtain rfl := hfile
      exact hkept e (Journal.mem_about.mpr hmem) scene
    · exact Event.files_replay _ (hx (r, e) hmem hfile) scene

theorem components_of_fix
    (hreach : Reaches (Planner.new s.registry q.selected) dryRun (s.crew tree q vs) c)
    (hkeeps : s.registry.KeepsViolations) {x : Path × Event} (hx : x ∈ c.journal) {f : Fix}
    (hf : f ∈ x.2.fixes) : f.violation.file.components = x.1.components := by
  have hstaffed := (Session.reaches_crew hreach).1
  obtain ⟨t, ht, hfile⟩ := hstaffed.known x hx
  have hhistory := hstaffed.history t ht
  rw [hfile] at hhistory
  obtain ⟨d, hd⟩ := hhistory.mem_fixes_of_event (Journal.mem_about.mpr hx) hf
  have hv := Planner.violation_mem_of_mem_fixes hkeeps hd
  rw [(Session.mem_units (hstaffed.unit_mem ht)).1] at hv
  rw [← hfile]
  exact Path.same_iff.mp (List.mem_filter.mp hv).2

theorem not_mem_applied_aside
    (hreach : Reaches (Planner.new s.registry q.selected) dryRun (s.crew tree q vs) c)
    (hkeeps : s.registry.KeepsViolations) {t : Task} (ht : t ∈ c.tasks) {d : Document} {f : Fix}
    (hf : f ∈ (t.unit.prepared (Planner.new s.registry q.selected) d).fixes) :
    f ∉ (c.journal.aside t.unit.file).flatMap (·.2.applied) := by
  have hstaffed := (Session.reaches_crew hreach).1
  have hu := hstaffed.unit_mem ht
  intro hmade
  obtain ⟨x, hx, hfx⟩ := List.mem_flatMap.mp hmade
  obtain ⟨hmem, hother⟩ := List.mem_filter.mp hx
  have hv := Planner.violation_mem_of_mem_fixes hkeeps hf
  rw [(Session.mem_units hu).1] at hv
  have hcomponents := components_of_fix hreach hkeeps hmem (Event.mem_fixes_of_applied hfx)
  have hsame := hcomponents.symm.trans (Path.same_iff.mp (List.mem_filter.mp hv).2)
  exact of_decide_eq_true hother
    (spelled_once (hstaffed.known_unit x hmem) ⟨t.unit, hu, rfl⟩ hsame)

end Crew

namespace Session

/-- What a run has made of the file of a unit `u` that came to nothing. -/
structure Undone (s : Session) (tree : FileTree) (q : Request) (u : FileUnit) (k : Completion)
    (out : Report × Session × FileTree) (journal : Journal) : Prop where
  /-- Nothing that the unit did has changed its file. -/
  kept : ∀ e ∈ journal.about u.file, ∀ scene : Scene,
    (e.replay tree.current scene u.file).files (locate tree.current u.file) =
      scene.files (locate tree.current u.file)
  /-- The file holds what it held before the run, unless a unit of another path has put bytes
  there. -/
  bytes : out.2.2.fileAt? (locate tree.current u.file) =
      tree.fileAt? (locate tree.current u.file) ∨
    ∃ x ∈ journal, x.1 ≠ u.file ∧ x.2.place? tree.current x.1 = some (locate tree.current u.file)
  /-- The file is not called modified, however it is spelled. -/
  unmodified : ∀ p ∈ out.1.modified.toList, p.components ≠ u.file.components
  applied : out.1.applied.Perm ((journal.aside u.file).flatMap (·.2.applied))
  /-- No fix that could be planned for the unit is called made. -/
  unapplied : s.registry.KeepsViolations →
    ∀ d, ∀ f ∈ (u.prepared (Planner.new s.registry q.selected) d).fixes, f ∉ out.1.applied
  dropped : k = .interrupted → out.1.errors.Perm (journal.aside u.file).errors
  failed : k = .failed → ∃ e,
    u.Fails (Planner.new s.registry q.selected) s.cache.limit (journal.about u.file) e ∧
    out.1.errors.Perm ((u.file.text ++ ": " ++ e.message) :: (journal.aside u.file).errors) ∧
    (∀ p encoding, e = .notEncodable p encoding →
      ∃ d, .read d ∈ journal.about u.file ∧ d.encoding = .latin1 ∧
        ∃ c ∈ (u.prepared (Planner.new s.registry q.selected) d).outcome.content, 256 ≤ c.toNat) ∧
    ∀ d, .read d ∈ journal.about u.file →
      out.1.skipped.Perm ((u.prepared (Planner.new s.registry q.selected) d).fixes ++
        (journal.aside u.file).flatMap (·.2.skipped))

/-- A unit that has failed or was dropped has changed nothing, under every schedule and whenever an
interrupt comes. -/
theorem undone_of_ended {s : Session} {tree : FileTree} {q : Request} {vs : List Violation}
    {c : Crew}
    (hreach : Crew.Reaches (Planner.new s.registry q.selected) q.dryRun (s.crew tree q vs) c)
    {t : Task} (ht : t ∈ c.tasks) {k : Completion} (hk : t.stage = .ended k) (hne : k ≠ .done) :
    s.Undone tree q t.unit k (s.conclude q c.work c.isCutShort) c.journal := by
  obtain ⟨hstaffed, haccounted⟩ := reaches_crew hreach
  obtain ⟨happlied, hskipped, herrors⟩ := Crew.report_perm_aside hreach t.unit.file
  have hhistory := hstaffed.history t ht
  rw [hk] at hhistory
  have hnothing := hhistory.nothing_of_ended hne
  have hkept : ∀ e ∈ c.journal.about t.unit.file, ∀ scene : Scene,
      (e.replay tree.current scene t.unit.file).files (locate tree.current t.unit.file) =
        scene.files (locate tree.current t.unit.file) :=
    fun e he => Event.files_replay_self (hnothing e he).2
  have hown : (c.journal.about t.unit.file).flatMap Event.applied = [] :=
    List.flatMap_eq_nil_iff.mpr fun e he => (hnothing e he).1
  rw [hown, List.nil_append] at happlied
  constructor
  case kept => exact hkept
  case bytes => exact Crew.bytes_of_kept hreach hkept
  case unmodified =>
    intro p hp hcomponents
    obtain ⟨o, encoding, hm⟩ := (Crew.mem_modified hstaffed haccounted rfl).mp hp
    have hunit : ∃ u ∈ units vs, u.file = t.unit.file := ⟨_, hstaffed.unit_mem ht, rfl⟩
    obtain rfl := Crew.spelled_once (hstaffed.known_unit _ hm) hunit hcomponents
    cases (hnothing _ (Journal.mem_about.mpr hm)).2
  case applied => exact happlied
  case unapplied =>
    intro hkeeps d f hf hmade
    exact Crew.not_mem_applied_aside hreach hkeeps ht hf (happlied.mem_iff.mp hmade)
  case dropped =>
    rintro rfl
    rw [hhistory.errors_of_interrupted, List.nil_append] at herrors
    exact herrors
  case failed =>
    rintro rfl
    obtain ⟨e, hfails⟩ := Crew.Staffed.fails_of_reaches hreach ht hk
    refine ⟨e, hfails, ?_, ?_, fun d hd => ?_⟩
    · rw [hfails.errors_eq] at herrors
      exact herrors
    · rintro p encoding rfl
      exact hfails.of_notEncodable
    · exact hskipped.trans ((hfails.skipped_perm hd).append_right _)

/-- One document in Latin-1, and a message with an arrow that would have to go into it. -/
theorem undone_of_ended_arrow :
    let s := new (Registry.ofList [Rule.flag "BlockTitle" []]) {}
    let tree : FileTree := { FileTree.oneDocument with
      entries := [(["w"], .directory), (["w", "tmp"], .directory),
        (["w", "a.adoc"], .file ⟨#[99, 97, 102, 233, 10]⟩)] }
    let payload := .ok ("\x7b\"a.adoc\":[\x7b\"Check\":\"AsciiDocDITA.BlockTitle\",\"Line\":1," ++
      "\"Column\":1,\"Message\":\"a → b\"\x7d]\x7d" : Text)
    let c := s.served tree payload .plain 40
    let out := s.conclude .plain c.work c.isCutShort
    c.isOver ∧ out.1.errors = [("a.adoc: a.adoc cannot be re-encoded as latin-1" : Text)] ∧
      out.1.processed.toList = [("a.adoc" : Path)] ∧ out.1.skipped.length = 1 ∧
      ∃ t ∈ c.tasks, t.unit.file = "a.adoc" ∧
        s.Undone tree .plain t.unit .failed out c.journal := by
  intro s tree payload c out
  obtain ⟨hover, herrors, hprocessed, hskipped, hfailed⟩ :
      c.isOver ∧ out.1.errors = [("a.adoc: a.adoc cannot be re-encoded as latin-1" : Text)] ∧
        out.1.processed.toList = [("a.adoc" : Path)] ∧ out.1.skipped.length = 1 ∧
        c.tasks.any fun t => t.unit.file = "a.adoc" && t.stage.isFailed := by
    decide +kernel
  obtain ⟨t, ht, hend⟩ := List.any_eq_true.mp hfailed
  obtain ⟨hfile, hk⟩ := Bool.and_eq_true_iff.mp hend
  have hreach : Crew.Reaches (Planner.new s.registry Request.plain.selected) Request.plain.dryRun
      (s.crew tree .plain (relevant .plain (((s.violations payload).toOption).getD []))) c :=
    Crew.reaches_proceed 40 _
  have hundone := undone_of_ended hreach ht (Stage.eq_of_isFailed hk) (by decide)
  exact ⟨hover, herrors, hprocessed, hskipped, t, ht, of_decide_eq_true hfile, hundone⟩

end Session

end Errata
