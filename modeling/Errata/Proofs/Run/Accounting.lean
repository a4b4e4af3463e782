import Errata.Proofs.Edit.Blocks
import Errata.Proofs.Run.Units
import Errata.Rule.Entity
import Mathlib.Data.List.Perm.Basic

/-!
# The accounts of a run

Whatever the schedule and whenever an interrupt comes, the report of a run lists each planned fix
of each processed file exactly once, as applied or as skipped, and calls those files modified that
the run has written.
-/
namespace Errata

namespace Event

def fixes : Event → List Fix
  | .left fixes => fixes
  | .unchanged o | .written o _ | .unwritten o _ => o.applied ++ o.skipped
  | _ => []

def processes : Event → Bool
  | .left _ | .copied _ => true
  | _ => false

def writes : Event → Bool
  | .written _ _ => true
  | _ => false

end Event

namespace Report

theorem note_processed (r : Report) (p : Path) (e : Event) :
    (r.note p e).processed = if e.processes then r.processed.insert p else r.processed := by
  cases e <;> rfl

theorem note_modified (r : Report) (p : Path) (e : Event) :
    (r.note p e).modified = if e.writes then r.modified.insert p else r.modified := by
  cases e <;> rfl

theorem note_violations (r : Report) (p : Path) (e : Event) :
    (r.note p e).violations = r.violations := by
  cases e <;> rfl

theorem note_fixes (r : Report) (p : Path) (e : Event) :
    (r.note p e).fixes.Perm (r.fixes ++ e.fixes) := by
  cases e with
  | read | unread | dropped | copied => simp [note, fixes, Event.fixes]
  | left fixes => simp [note, Report.fixes, Event.fixes]
  | unchanged o | written o =>
    simp only [note, fixes, Event.fixes, List.append_assoc]
    refine List.Perm.append_left _ ?_
    rw [← List.append_assoc, ← List.append_assoc]
    exact List.Perm.append_right _ List.perm_append_comm
  | unwritten o =>
    simp only [note, fixes, Event.fixes, List.append_assoc]
    exact (List.perm_append_comm.append_left _).append_left _

theorem noteAll_violations (r : Report) (j : Journal) :
    (r.noteAll j).violations = r.violations := by
  induction j generalizing r with
  | nil => rfl
  | cons x j ih => exact (ih _).trans (note_violations r x.1 x.2)

theorem noteAll_fixes (r : Report) (j : Journal) :
    (r.noteAll j).fixes.Perm (r.fixes ++ j.flatMap fun x => x.2.fixes) := by
  induction j generalizing r with
  | nil => simp [noteAll]
  | cons x j ih =>
    refine (ih _).trans ?_
    rw [List.flatMap_cons, ← List.append_assoc]
    exact (note_fixes r x.1 x.2).append_right _

theorem noteAll_processed (r : Report) (j : Journal) : (r.noteAll j).processed =
    j.foldl (fun s x => if x.2.processes then s.insert x.1 else s) r.processed := by
  induction j generalizing r with
  | nil => rfl
  | cons x j ih => exact (ih _).trans (by rw [note_processed, List.foldl_cons])

theorem noteAll_modified (r : Report) (j : Journal) : (r.noteAll j).modified =
    j.foldl (fun s x => if x.2.writes then s.insert x.1 else s) r.modified := by
  induction j generalizing r with
  | nil => rfl
  | cons x j ih => exact (ih _).trans (by rw [note_modified, List.foldl_cons])

end Report

theorem Accounted.violations {w w' : Work} {j : Journal} (h : Accounted w w' j) :
    w'.report.violations = w.report.violations := by
  rw [h.report, Report.noteAll_violations]

theorem Journal.mem_foldl_insert {marks : Event → Bool} {j : Journal} {set : PathSet}
    {known : Path → Prop}
    (hknown : ∀ p q, known p → known q → p.components = q.components → p = q)
    (hset : ∀ p ∈ set.toList, known p) (hj : ∀ x ∈ j, known x.1) (p : Path) :
    p ∈ (j.foldl (fun s x => if marks x.2 then s.insert x.1 else s) set).toList ↔
      p ∈ set.toList ∨ ∃ e, (p, e) ∈ j ∧ marks e := by
  induction j generalizing set with
  | nil => simp
  | cons x j ih =>
    obtain ⟨hx, hj⟩ := List.forall_mem_cons.mp hj
    have hinsert : ∀ p, p ∈ (if marks x.2 then set.insert x.1 else set).toList ↔
        p ∈ set.toList ∨ p = x.1 ∧ marks x.2 := by
      intro p
      split
      · next hm =>
        rw [and_iff_left hm]
        exact PathSet.mem_insert_of_unique fun q hq => hknown q x.1 (hset q hq) hx
      · next hm => simp [hm]
    have hset' : ∀ p ∈ (if marks x.2 then set.insert x.1 else set).toList, known p := by
      intro q hq
      rcases (hinsert q).mp hq with hq | ⟨rfl, -⟩
      · exact hset q hq
      · exact hx
    rw [List.foldl_cons, ih hset' hj, hinsert, or_assoc]
    refine or_congr_right ?_
    obtain ⟨q, e⟩ := x
    simp only [List.mem_cons, Prod.mk.injEq]
    constructor
    · rintro (⟨rfl, hm⟩ | ⟨e', hm, hmarks⟩)
      · exact ⟨e, .inl ⟨rfl, rfl⟩, hm⟩
      · exact ⟨e', .inr hm, hmarks⟩
    · rintro ⟨e', ⟨rfl, rfl⟩ | hm, hmarks⟩
      · exact .inl ⟨rfl, hmarks⟩
      · exact .inr ⟨e', hm, hmarks⟩

theorem Prepared.outcome_perm (x : Prepared) :
    (x.outcome.applied ++ x.outcome.skipped).Perm x.fixes :=
  Edit.apply_perm x.document.text x.fixes

namespace History

variable {planner : Planner} {dryRun : Bool} {u : FileUnit} {k : Completion} {events : List Event}

/-- A unit that has ended has recorded its file with all fixes planned for the document it read,
or it has recorded no fix at all. -/
theorem fixes_perm (h : History planner dryRun u (.ended k) events) :
    (∃ d, .read d ∈ events ∧ events.any (·.processes) ∧
      (events.flatMap Event.fixes).Perm (u.prepared planner d).fixes) ∨
    events.any (·.processes) = false ∧ events.flatMap Event.fixes = [] := by
  cases h with
  | unread | dropped => exact .inr ⟨rfl, rfl⟩
  | left d => exact .inl ⟨d, by simp, rfl, by simp [Event.fixes]⟩
  | unchanged d | written d | unwritten d =>
    refine .inl ⟨d, by simp, rfl, ?_⟩
    simpa [Event.fixes] using (u.prepared planner d).outcome_perm

theorem of_written {st : Stage} (h : History planner dryRun u st events)
    {o : Edit.Outcome} {encoding : Encoding} (hw : .written o encoding ∈ events) :
    ∃ d place, events = [.read d, .copied place, .written o encoding] ∧
      o = (u.prepared planner d).outcome ∧ encoding = d.encoding ∧ o.content ≠ d.text := by
  cases h with
  | written d place _ hne =>
    obtain ⟨rfl, rfl⟩ : o = (u.prepared planner d).outcome ∧ encoding = d.encoding := by
      simpa using hw
    exact ⟨d, place, rfl, rfl, rfl, hne⟩
  | _ => simp at hw

theorem processes_of_written {st : Stage} (h : History planner dryRun u st events)
    {o : Edit.Outcome} {encoding : Encoding} (hw : .written o encoding ∈ events) :
    ∃ e ∈ events, e.processes := by
  obtain ⟨d, place, rfl, -⟩ := h.of_written hw
  exact ⟨.copied place, by simp, rfl⟩

theorem read_of_processes {st : Stage} (h : History planner dryRun u st events) {e : Event}
    (he : e ∈ events) (hp : e.processes) : ∃ d, .read d ∈ events := by
  cases h with
  | begun | refused | unread => simp_all [Event.processes]
  | _ d => exact ⟨d, by simp⟩

/-- A unit reads its file once, before anything else. -/
theorem read_not_mem_tail {st : Stage} (h : History planner dryRun u st events) (d : Document) :
    .read d ∉ events.tail := by
  cases h <;> simp

end History

theorem flatMap_ite {α β : Type} (f : α → List β) (keep : α → Bool) (l : List α) :
    (l.flatMap fun x => if keep x then f x else []) = (l.filter keep).flatMap f := by
  induction l with
  | nil => rfl
  | cons x l ih => cases hx : keep x <;> simp [hx, ih]

/-- A journal is the events about its files, one file after the other. -/
theorem Journal.flatMap_about {α : Type} (f : Path → Event → List α) {ps : List Path}
    (hps : ps.Nodup) {j : Journal} (h : ∀ x ∈ j, x.1 ∈ ps) :
    (j.flatMap fun x => f x.1 x.2).Perm (ps.flatMap fun p => (about j p).flatMap (f p)) := by
  have hall : (ps.flatMap fun p => j.filter (·.1 = p)).Perm (j.filter fun _ => true) :=
    Group.flatMap_filter_perm hps fun x hx => by simp [h x hx]
  have hperm := (hall.trans (.of_eq (List.filter_true j))).flatMap_right fun x => f x.1 x.2
  rw [List.flatMap_assoc] at hperm
  refine hperm.symm.trans (.of_eq (List.flatMap_congr fun p _ => ?_))
  rw [about, List.flatMap_map]
  apply List.flatMap_congr
  intro x hx
  obtain rfl : x.1 = p := by simpa using (List.mem_filter.mp hx).2
  rfl

namespace Session

/-- The fixes that are planned for a file of some violations, from the document that the cache has
for it. -/
def planned (planner : Planner) (vs : List Violation) (cache : Cache) (p : Path) : List Fix :=
  match cache.get? p with
  | some d => planner.fixes (vs.filter (·.file.same p)) d.text
  | none => []

theorem planned_of_unit (planner : Planner) {vs : List Violation} {cache : Cache} {u : FileUnit}
    (hu : u ∈ units vs) {d : Document} (hd : cache.get? u.file = some d) :
    planned planner vs cache u.file = (u.prepared planner d).fixes := by
  simp only [planned, hd, FileUnit.prepared, (mem_units hu).1]

/-- What the report of a run says, against what the run has done. -/
structure Accounts (s : Session) (tree : FileTree) (q : Request)
    (out : Report × Session × FileTree) (journal : Journal) : Prop where
  /-- No fix is lost, and none is counted twice. -/
  fixes : (out.1.applied ++ out.1.skipped).Perm (out.1.processed.toList.flatMap
    (planned (Planner.new s.registry q.selected) out.1.violations out.2.1.cache))
  /-- A processed file was known to the session, or it was read and decoded. -/
  documents : ∀ p ∈ out.1.processed.toList, ∃ d, out.2.1.cache.get? p = some d ∧
    (s.cache.get? p = some d ∨ ∃ before after, journal = before ++ (p, .read d) :: after ∧
      Document.Decodes ((Journal.replay tree.current ⟨tree.fileAt?, s.cache.get?⟩ before).files
        (FileTree.locate tree.current p)) d)
  modified_processed : ∀ p ∈ out.1.modified.toList, p ∈ out.1.processed.toList
  processed_named : ∀ p ∈ out.1.processed.toList, ∃ v ∈ out.1.violations, v.file = p
  /-- Files are called modified exactly if they were written. -/
  modified_iff : ∀ p, p ∈ out.1.modified.toList ↔
    ∃ o encoding, (p, .written o encoding) ∈ journal
  /-- The journal leaves out no change of a file. -/
  files : out.2.2.fileAt? =
    (Journal.replay tree.current ⟨tree.fileAt?, s.cache.get?⟩ journal).files

end Session

namespace Crew

variable {planner : Planner} {dryRun : Bool} {vs : List Violation} {c : Crew}

theorem spelled_once {p q : Path} (hp : ∃ u ∈ Session.units vs, u.file = p)
    (hq : ∃ u ∈ Session.units vs, u.file = q) (h : p.components = q.components) : p = q := by
  obtain ⟨u, hu, rfl⟩ := hp
  obtain ⟨v, hv, rfl⟩ := hq
  rw [Session.unit_eq hu hv h]

theorem Staffed.known_unit (h : Staffed planner dryRun (Session.units vs) c) :
    ∀ x ∈ c.journal, ∃ u ∈ Session.units vs, u.file = x.1 := by
  intro x hx
  obtain ⟨t, ht, hfile⟩ := h.known x hx
  exact ⟨t.unit, h.unit_mem ht, hfile⟩

section

variable {w : Work} {p : Path} (h : Staffed planner dryRun (Session.units vs) c)
  (ha : Accounted w c.work c.journal)

include h ha

theorem mem_modified (hempty : w.report.modified = ∅) :
    p ∈ c.work.report.modified.toList ↔ ∃ o encoding, (p, .written o encoding) ∈ c.journal := by
  have hnone : ∀ q, q ∉ (∅ : PathSet).toList := PathSet.not_mem_empty
  rw [ha.report, Report.noteAll_modified, hempty, Journal.mem_foldl_insert
    (fun _ _ => spelled_once) (fun q hq => absurd hq (hnone q)) h.known_unit,
    or_iff_right (hnone p)]
  constructor
  · rintro ⟨e, he, hw⟩
    cases e with
    | written o encoding => exact ⟨o, encoding, he⟩
    | _ => simp [Event.writes] at hw
  · rintro ⟨o, encoding, hm⟩
    exact ⟨_, hm, rfl⟩

/-- A document that was read was known before the run, or it is what its file held when the first
event about it came. -/
theorem source_of_mem {d : Document} (hmem : (p, .read d) ∈ c.journal) :
    w.cache.get? p = some d ∨
      ∃ before after, c.journal = before ++ (p, .read d) :: after ∧ Journal.about before p = [] ∧
        Document.Decodes ((Journal.replay w.tree.current w.scene before).files
          (FileTree.locate w.tree.current p)) d := by
  obtain ⟨t, ht, rfl⟩ := h.known _ hmem
  obtain ⟨before, after, hsplit⟩ := List.append_of_mem hmem
  have hfirst : Journal.about before t.unit.file = [] := by
    by_contra hne
    obtain ⟨first, rest, hbefore⟩ := List.exists_cons_of_ne_nil hne
    apply (h.history t ht).read_not_mem_tail d
    rw [hsplit, Journal.about_append, hbefore, List.cons_append, List.tail_cons]
    exact List.mem_append_right _ (Journal.mem_about.mpr List.mem_cons_self)
  have hunread : (Journal.replay w.tree.current w.scene before).documents t.unit.file =
      w.cache.get? t.unit.file := by
    apply Journal.documents_replay
    rintro ⟨q, e⟩ hx d' rfl hsame
    have hq := h.known_unit _ (hsplit ▸ List.mem_append_left _ hx)
    obtain rfl := spelled_once hq (h.known_unit _ hmem) (Path.same_iff.mp hsame)
    have := Journal.mem_about.mpr hx
    simp [hfirst] at this
  rcases (hsplit ▸ ha.isTrue).of_split with hknown | ⟨-, hdecodes⟩
  · exact .inl (hunread ▸ hknown)
  · exact .inr ⟨before, after, hsplit, hfirst, hdecodes⟩

/-- The part that one file has in the report of a run that is over. -/
theorem fixes_of_file (hover : c.isOver) (hp : ∃ u ∈ Session.units vs, u.file = p) :
    ((Journal.about c.journal p).flatMap Event.fixes).Perm
      (if (Journal.about c.journal p).any (·.processes)
        then Session.planned planner vs c.work.cache p else []) := by
  obtain ⟨u, hu, rfl⟩ := hp
  rcases h.concluded (Session.nodup_files vs) hover hu with ⟨k, hhistory⟩ | hnone
  · rcases hhistory.fixes_perm with ⟨d, hd, hprocessed, hperm⟩ | ⟨hnot, hnil⟩
    · have hcache := ha.read u.file d (Journal.mem_about.mp hd)
      rwa [if_pos hprocessed, Session.planned_of_unit planner hu hcache]
    · simp [hnot, hnil]
  · simp [hnone]

variable (hempty : w.report.processed = ∅)

include hempty

theorem mem_processed :
    p ∈ c.work.report.processed.toList ↔ ∃ e, (p, e) ∈ c.journal ∧ e.processes := by
  have hnone : ∀ q, q ∉ (∅ : PathSet).toList := PathSet.not_mem_empty
  rw [ha.report, Report.noteAll_processed, hempty, Journal.mem_foldl_insert
    (fun _ _ => spelled_once) (fun q hq => absurd hq (hnone q)) h.known_unit,
    or_iff_right (hnone p)]

theorem processed_of_written {o : Edit.Outcome} {encoding : Encoding}
    (hm : (p, .written o encoding) ∈ c.journal) :
    p ∈ c.work.report.processed.toList := by
  obtain ⟨t, ht, rfl⟩ := h.known _ hm
  obtain ⟨e, he, hp⟩ := (h.history t ht).processes_of_written (Journal.mem_about.mpr hm)
  exact (mem_processed h ha hempty).mpr ⟨e, Journal.mem_about.mp he, hp⟩

open scoped List in
theorem fixes_perm (hover : c.isOver) (hfixes : w.report.fixes = []) :
    c.work.report.fixes.Perm
      (c.work.report.processed.toList.flatMap (Session.planned planner vs c.work.cache)) := by
  let files := (Session.units vs).map FileUnit.file
  let about := Journal.about c.journal
  have hknown : ∀ x ∈ c.journal, x.1 ∈ files := by
    intro x hx
    obtain ⟨u, hu, hfile⟩ := h.known_unit x hx
    exact List.mem_map.mpr ⟨u, hu, hfile⟩
  have hprocessed : (files.filter fun p => (about p).any (·.processes)).Perm
      c.work.report.processed.toList := by
    refine (List.perm_ext_iff_of_nodup ((Session.nodup_files vs).filter _)
      (PathSet.nodup _)).mpr fun p => ?_
    rw [mem_processed h ha hempty, List.mem_filter, Journal.any_about]
    refine and_iff_right_of_imp ?_
    rintro ⟨e, he, -⟩
    exact hknown _ he
  calc c.work.report.fixes
    _ ~ c.journal.flatMap fun x => x.2.fixes := by
        simpa [ha.report, hfixes] using w.report.noteAll_fixes c.journal
    _ ~ files.flatMap fun p => (about p).flatMap Event.fixes :=
        Journal.flatMap_about (fun _ => Event.fixes) (Session.nodup_files vs) hknown
    _ ~ files.flatMap fun p => if (about p).any (·.processes)
          then Session.planned planner vs c.work.cache p else [] :=
        List.Perm.flatMap_left _ fun p hp => fixes_of_file h ha hover (List.mem_map.mp hp)
    _ ~ c.work.report.processed.toList.flatMap (Session.planned planner vs c.work.cache) := by
        rw [flatMap_ite]
        exact hprocessed.flatMap_right _

theorem document_of_file (hp : p ∈ c.work.report.processed.toList) :
    ∃ d, c.work.cache.get? p = some d ∧ (w.cache.get? p = some d ∨
      ∃ before after, c.journal = before ++ (p, .read d) :: after ∧
        Document.Decodes ((Journal.replay w.tree.current w.scene before).files
          (FileTree.locate w.tree.current p)) d) := by
  obtain ⟨e, he, hprocesses⟩ := (mem_processed h ha hempty).mp hp
  obtain ⟨t, ht, rfl⟩ := h.known _ he
  have hhistory := h.history t ht
  obtain ⟨d, hd⟩ := hhistory.read_of_processes (Journal.mem_about.mpr he) hprocesses
  have hmem := Journal.mem_about.mp hd
  refine ⟨d, ha.read _ d hmem, (source_of_mem h ha hmem).imp_right ?_⟩
  rintro ⟨before, after, hsplit, -, hdecodes⟩
  exact ⟨before, after, hsplit, hdecodes⟩

end

end Crew

theorem Session.Runs.violations_eq {s : Session} {tree : FileTree}
    {payload : Except LintError Text} {q : Request} {out : Report × Session × FileTree}
    {journal : Journal} (h : s.Runs tree payload q out journal) :
    out.1.violations =
      match s.violations payload with
      | .error _ => []
      | .ok vs => relevant q vs := by
  cases h with
  | refused hv =>
    rw [hv]
    rfl
  | completed hv hreach =>
    rw [hv]
    exact (reaches_crew hreach).2.violations

/-- The accounts of a run are right under every schedule, with any number of workers, whenever an
interrupt comes and whatever fails. -/
theorem Session.runs_accounts {s : Session} {tree : FileTree} {payload : Except LintError Text}
    {q : Request} {out : Report × Session × FileTree} {journal : Journal}
    (h : s.Runs tree payload q out journal) : s.Accounts tree q out journal := by
  cases h with
  | refused =>
    have hnone : ∀ p, p ∉ (∅ : PathSet).toList := PathSet.not_mem_empty
    constructor
    case fixes => exact .refl _
    case documents => exact fun p hp => absurd hp (hnone p)
    case modified_processed => exact fun p hp => absurd hp (hnone p)
    case processed_named => exact fun p hp => absurd hp (hnone p)
    case modified_iff => exact fun p => iff_of_false (hnone p) (by simp)
    case files => rfl
  | @completed vs c _ hreach hover =>
    obtain ⟨hstaffed, haccounted⟩ := reaches_crew hreach
    have hviolations : c.work.report.violations = relevant q vs := by
      rw [haccounted.report, Report.noteAll_violations]
      rfl
    constructor
    case fixes =>
      simp only [conclude, hviolations]
      exact Crew.fixes_perm hstaffed haccounted rfl hover rfl
    case documents => exact fun p hp => Crew.document_of_file hstaffed haccounted rfl hp
    case modified_processed =>
      intro p hp
      obtain ⟨o, encoding, hm⟩ := (Crew.mem_modified hstaffed haccounted rfl).mp hp
      exact Crew.processed_of_written hstaffed haccounted rfl hm
    case processed_named =>
      intro p hp
      obtain ⟨e, he, -⟩ := (Crew.mem_processed hstaffed haccounted rfl).mp hp
      obtain ⟨u, hu, rfl⟩ := hstaffed.known_unit _ he
      simp only [conclude, hviolations]
      exact (mem_units hu).2
    case modified_iff => exact fun p => Crew.mem_modified hstaffed haccounted rfl
    case files => exact congrArg Scene.files haccounted.scene

def FileTree.oneDocument : FileTree where
  entries := [(["w"], .directory), (["w", "tmp"], .directory),
    (["w", "a.adoc"], .file "A &amp;\n".toUTF8)]
  current := ["w"]
  temporary := "/w/tmp"

def Payload.oneAlert : Text :=
  "\x7b\"a.adoc\":[\x7b\"Check\":\"AsciiDocDITA.EntityReference\",\"Line\":1,\"Column\":3," ++
    "\"Match\":\"&amp;\"\x7d]\x7d"

def Request.plain : Request :=
  ⟨false, none, ⟨2024, 1, 1, 0, 0, 0, 0, by decide, by decide⟩,
    ⟨2024, 1, 1, 0, 0, 0, 0, by decide, by decide⟩⟩

theorem Session.runs_accounts_oneDocument :
    let s := Session.new (Registry.ofList [Rule.entityReference]) {}
    let out := s.run .oneDocument (.ok Payload.oneAlert) .plain
    ∃ journal, s.Runs .oneDocument (.ok Payload.oneAlert) .plain out journal ∧
      s.Accounts .oneDocument .plain out journal ∧
      out.1.modified.toList = [("a.adoc" : Path)] ∧ out.1.applied.length = 1 := by
  intro s out
  obtain ⟨journal, hruns⟩ := s.runs_run .oneDocument (.ok Payload.oneAlert) .plain
  exact ⟨journal, hruns, runs_accounts hruns, by decide +kernel⟩

end Errata
