import Errata.Proofs.Run.Accounting
import Mathlib.Data.List.Nodup

/-!
# Whether originals can be restored

Every file that a run changes has been copied before. The copy still holds the original at the end
if no other copy has gone to the same place and the file had not been changed by then. Copies are
named after the path behind the working directory, or the whole path where the file lies elsewhere,
and neither the root nor a `..` has a part in that: two files may well be kept under one name.
-/
namespace Errata

open FileTree

def Event.losesCopy : Event → Bool
  | .copied (.error _) => true
  | _ => false

/-- The files that were copied, each with the path of its copy. -/
def Journal.copies (j : Journal) : List (Path × Path) :=
  j.filterMap fun
    | (p, .copied (.ok target)) => some (p, target)
    | _ => none

/-- The file at `p` can be restored: its copy holds what it held before. -/
def Restorable (before after : FileTree) (j : Journal) (p : Path) : Prop :=
  ∃ target content, (p, target) ∈ Journal.copies j ∧
    before.fileAt? (locate before.current p) = some content ∧ after.read target = .ok content

theorem Restorable.of_get? {before after : FileTree} {j : Journal} {p : Path} (target : Path)
    (content : ByteArray)
    (h : (p, target) ∈ Journal.copies j ∧
      before.get? (locate before.current p) = some (.file content) ∧
      after.resolve target = .ok (locate after.current target) ∧
      after.get? (locate after.current target) = some (.file content)) :
    Restorable before after j p := by
  obtain ⟨hm, hbefore, hresolve, hafter⟩ := h
  refine ⟨target, content, hm, fileAt?_eq_some_iff.mpr hbefore, ?_⟩
  exact read_eq_ok_iff.mpr ⟨hresolve, fileAt?_eq_some_iff.mpr hafter⟩

/-- No two files are copied to the same place. -/
def CopiesApart (current : Location) (j : Journal) : Prop :=
  ((Journal.copies j).map fun x => locate current x.2).Nodup

/-- No two copied files have the same names. -/
def NamesApart (a : Backups) (j : Journal) : Prop :=
  ((Journal.copies j).map fun x => a.namesOf x.1).Nodup

/-- When a file is copied, it holds what it held before the run. -/
def CopiedUnchanged (current : Location) (s : Scene) (j : Journal) (p : Path) : Prop :=
  ∀ before target after, j = before ++ (p, .copied (.ok target)) :: after →
    (Journal.replay current s before).files (locate current p) = s.files (locate current p)

/-- None of these files lies in the backup directory. -/
def OutOfBackups (current : Location) (files : PathSet) (dir : Option Path) : Prop :=
  ∀ d, dir = some d → ∀ p ∈ files.toList, ¬locate current d <+: locate current p

theorem Journal.mem_copies {j : Journal} {p target : Path} :
    (p, target) ∈ copies j ↔ (p, .copied (.ok target)) ∈ j := by
  unfold copies
  rw [List.mem_filterMap]
  constructor
  · rintro ⟨x, hx, hsome⟩
    split at hsome
    · obtain ⟨rfl, rfl⟩ := Prod.mk.inj (Option.some.inj hsome)
      exact hx
    · cases hsome
  · exact fun h => ⟨_, h, rfl⟩

theorem Journal.copies_append (j k : Journal) : copies (j ++ k) = copies j ++ copies k :=
  List.filterMap_append

theorem History.writes_last {planner : Planner} {dryRun : Bool} {u : FileUnit} {st : Stage}
    {events : List Event} (h : History planner dryRun u st events) :
    events.Pairwise fun a _ => a.writes = false := by
  cases h <;> simp [Event.writes]

namespace Crew

variable {planner : Planner} {dryRun : Bool} {vs : List Violation} {c : Crew} {w : Work}
  {before after : Journal} {p target : Path}

theorem copy_place (ha : Accounted w c.work c.journal)
    (hm : (p, target) ∈ Journal.copies c.journal) :
    ∃ dir, c.work.backups.dir = some dir ∧ target = dir.join (w.backups.placeOf p) ∧
      locate w.tree.current target = locate w.tree.current dir ++ w.backups.namesOf p ∧
      c.work.tree.resolve target = .ok (locate w.tree.current target) := by
  obtain ⟨dir, hdir, rfl, hresolve⟩ := ha.copied p target (Journal.mem_copies.mp hm)
  have hplace := Backups.locate_copy w.tree.current (ha.named dir hdir) p (a := w.backups)
  exact ⟨dir, hdir, rfl, hplace, hplace ▸ hresolve⟩

theorem copiesApart_iff (ha : Accounted w c.work c.journal) :
    CopiesApart w.tree.current c.journal ↔ NamesApart w.backups c.journal := by
  cases hdir : c.work.backups.dir with
  | none =>
    have hnil : Journal.copies c.journal = [] := by
      refine List.eq_nil_iff_forall_not_mem.mpr fun x hx => ?_
      obtain ⟨dir, hd, -⟩ := copy_place ha hx
      simp [hdir] at hd
    simp [CopiesApart, NamesApart, hnil]
  | some dir =>
    have hplaces : ((Journal.copies c.journal).map fun x => locate w.tree.current x.2) =
        ((Journal.copies c.journal).map fun x => w.backups.namesOf x.1).map
          (locate w.tree.current dir ++ ·) := by
      rw [List.map_map]
      refine List.map_congr_left fun x hx => ?_
      obtain ⟨d, hd, -, hplace, -⟩ := copy_place ha hx
      obtain rfl : dir = d := Option.some.inj (hdir.symm.trans hd)
      exact hplace
    unfold CopiesApart NamesApart
    rw [hplaces]
    exact List.nodup_map_iff fun _ _ h => List.append_cancel_left h

section

variable (h : Staffed planner dryRun (Session.units vs) c) (ha : Accounted w c.work c.journal)
  (hempty : w.report.processed = ∅)
  (hout : OutOfBackups w.tree.current c.work.report.processed c.work.backups.dir)

include h ha hempty hout

/-- Once a file has been copied, nothing else goes to the place of the copy. -/
theorem nothing_on_copy (hapart : CopiesApart w.tree.current c.journal)
    (hsplit : c.journal = before ++ (p, .copied (.ok target)) :: after) :
    ∀ x ∈ after, x.2.place? w.tree.current x.1 ≠ some (locate w.tree.current target) := by
  rintro ⟨q, e⟩ hx hplace
  cases e with
  | copied place =>
    cases place with
    | error e => cases hplace
    | ok target' =>
      have hcopies : Journal.copies c.journal =
          Journal.copies before ++ (p, target) :: Journal.copies after := by
        rw [hsplit, Journal.copies_append]
        rfl
      rw [CopiesApart, hcopies, List.map_append, List.map_cons] at hapart
      have hnot := (List.nodup_cons.mp (List.nodup_append.mp hapart).2.1).1
      apply hnot
      rw [← Option.some.inj hplace]
      exact List.mem_map.mpr ⟨(q, target'), Journal.mem_copies.mpr hx, rfl⟩
  | written o encoding =>
    -- A write can only land on the copy if its file lies in the backup directory.
    have hm : (p, target) ∈ Journal.copies c.journal := Journal.mem_copies.mpr (by simp [hsplit])
    have hmem : (q, Event.written o encoding) ∈ c.journal := by simp [hsplit, hx]
    obtain ⟨dir, hdir, -, hcopy, -⟩ := copy_place ha hm
    apply hout dir hdir q (processed_of_written h ha hempty hmem)
    rw [Option.some.inj hplace, hcopy]
    exact List.prefix_append _ _
  | _ => cases hplace

/-- At the end a copy holds what its file held when it was copied. -/
theorem fileAt?_copy (hapart : CopiesApart w.tree.current c.journal)
    (hsplit : c.journal = before ++ (p, .copied (.ok target)) :: after) :
    c.work.tree.fileAt? (locate w.tree.current target) =
      (Journal.replay w.tree.current w.scene before).files (locate w.tree.current p) := by
  have hfiles := congrArg (fun s => s.files (locate w.tree.current target)) ha.scene
  have hlast := nothing_on_copy h ha hempty hout hapart hsplit
  refine hfiles.trans ?_
  rw [hsplit, Journal.replay_append]
  refine (Journal.files_replay _ hlast).trans ?_
  exact Function.update_self ..

/-- While all copies are apart, an original is kept exactly if it was still there to be copied. -/
theorem restorable_iff (hcopies : ∀ x ∈ c.journal, x.2.losesCopy = false)
    (hapart : CopiesApart w.tree.current c.journal)
    {o : Edit.Outcome} {encoding : Encoding} (hw : (p, .written o encoding) ∈ c.journal) :
    Restorable w.tree c.work.tree c.journal p ↔
      CopiedUnchanged w.tree.current w.scene c.journal p := by
  constructor
  · rintro ⟨target, content, hm, hcontent, hread⟩ before target' after hsplit
    have hm' : (p, target') ∈ Journal.copies c.journal := Journal.mem_copies.mpr (by simp [hsplit])
    obtain ⟨dir, hdir, rfl, -⟩ := copy_place ha hm
    obtain ⟨dir', hdir', rfl, -⟩ := copy_place ha hm'
    obtain rfl : dir = dir' := Option.some.inj (hdir.symm.trans hdir')
    have hfinal := fileAt?_of_read hread
    rw [ha.tree.current, fileAt?_copy h ha hempty hout hapart hsplit] at hfinal
    exact hfinal.trans hcontent.symm
  · intro hunchanged
    obtain ⟨t, ht, rfl⟩ := h.known _ hw
    obtain ⟨d, place, habout, -⟩ := (h.history t ht).of_written (Journal.mem_about.mpr hw)
    have hmem : (t.unit.file, .copied place) ∈ c.journal :=
      Journal.mem_about.mp (by simp [habout])
    cases place with
    | error e => exact absurd (hcopies _ hmem) (by simp [Event.losesCopy])
    | ok target =>
      obtain ⟨before, after, hsplit⟩ := List.append_of_mem hmem
      have hcontent := hunchanged before target after hsplit
      have hsome : ((Journal.replay w.tree.current w.scene before).files
          (locate w.tree.current t.unit.file)).isSome := (hsplit ▸ ha.isTrue).of_split
      obtain ⟨content, hthen⟩ := Option.isSome_iff_exists.mp hsome
      have hm := Journal.mem_copies.mpr hmem
      have hfinal := fileAt?_copy h ha hempty hout hapart hsplit
      obtain ⟨-, -, -, -, hresolve⟩ := copy_place ha hm
      refine ⟨target, content, hm, hcontent.symm.trans hthen, ?_⟩
      rw [read_eq_ok_iff, ha.tree.current]
      exact ⟨hresolve, hfinal.trans hthen⟩

theorem copiedUnchanged (hplaces : ∀ q ∈ c.work.report.processed.toList,
      locate w.tree.current q = locate w.tree.current p → q = p) :
    CopiedUnchanged w.tree.current w.scene c.journal p := by
  intro before target after hsplit
  have hcopied : (p, Event.copied (.ok target)) ∈ c.journal := by simp [hsplit]
  have hprocessed := (mem_processed h ha hempty).mpr ⟨_, hcopied, rfl⟩
  refine Journal.files_replay _ ?_
  rintro ⟨q, e⟩ hx hplace
  have hmem : (q, e) ∈ c.journal := by simp [hsplit, hx]
  cases e with
  | copied place =>
    cases place with
    | error e => cases hplace
    | ok target' =>
      obtain ⟨dir, hdir, -, hcopy, -⟩ := copy_place ha (Journal.mem_copies.mpr hmem)
      apply hout dir hdir p hprocessed
      rw [← Option.some.inj hplace, hcopy]
      exact List.prefix_append _ _
  | written o encoding =>
    obtain rfl := hplaces q (processed_of_written h ha hempty hmem) (Option.some.inj hplace)
    obtain ⟨t, ht, rfl⟩ := h.known _ hmem
    have hlast := (h.history t ht).writes_last
    rw [hsplit, Journal.about_append] at hlast
    have hwritten := Journal.mem_about.mpr hx
    have hthen : .copied (.ok target) ∈
        Journal.about ((t.unit.file, .copied (.ok target)) :: after) t.unit.file :=
      Journal.mem_about.mpr List.mem_cons_self
    cases (List.pairwise_append.mp hlast).2.2 _ hwritten _ hthen
  | _ => cases hplace

end

end Crew

/-- Where no two files have the same names, and no two paths lead to the same place, every file
that a run has changed can be restored. -/
theorem Session.originals_kept {s : Session} {tree : FileTree} {payload : Except LintError Text}
    {q : Request} {out : Report × Session × FileTree} {journal : Journal}
    (h : s.Runs tree payload q out journal)
    (hcopies : ∀ x ∈ journal, x.2.losesCopy = false)
    (hout : OutOfBackups tree.current out.1.processed out.1.backupDir)
    (hnames : NamesApart (Backups.new s.settings.workingDir s.settings.backupRoot) journal)
    (hplaces : ∀ p ∈ out.1.processed.toList, ∀ q ∈ out.1.processed.toList,
      locate tree.current p = locate tree.current q → p = q) :
    ∀ p ∈ out.1.modified.toList, Restorable tree out.2.2 journal p := by
  intro p hp
  cases h with
  | refused => exact absurd hp (PathSet.not_mem_empty p)
  | @completed vs c _ hreach hover =>
    obtain ⟨hstaffed, haccounted⟩ := reaches_crew hreach
    obtain ⟨o, encoding, hw⟩ := (Crew.mem_modified hstaffed haccounted rfl).mp hp
    have hprocessed := Crew.processed_of_written hstaffed haccounted rfl hw
    have hapart := (Crew.copiesApart_iff haccounted).mpr hnames
    refine (Crew.restorable_iff hstaffed haccounted rfl hout hcopies hapart hw).mpr ?_
    exact Crew.copiedUnchanged hstaffed haccounted rfl hout fun r hr => hplaces r hr p hprocessed

/-- All originals can be restored, and no two copies meet, exactly if no two copied files have the
same names and every file was still unchanged when it was copied. The backup directory is new, so
no file that the linter named is taken to lie there. -/
theorem Session.originals_kept_iff {s : Session} {tree : FileTree}
    {payload : Except LintError Text} {q : Request} {out : Report × Session × FileTree}
    {journal : Journal} (h : s.Runs tree payload q out journal)
    (hcopies : ∀ x ∈ journal, x.2.losesCopy = false)
    (hout : OutOfBackups tree.current out.1.processed out.1.backupDir) :
    ((∀ p ∈ out.1.modified.toList, Restorable tree out.2.2 journal p) ∧
        CopiesApart tree.current journal) ↔
      NamesApart (Backups.new s.settings.workingDir s.settings.backupRoot) journal ∧
        ∀ p ∈ out.1.modified.toList,
          CopiedUnchanged tree.current ⟨tree.fileAt?, s.cache.get?⟩ journal p := by
  cases h with
  | refused =>
    have hnone : ∀ p, p ∉ (∅ : PathSet).toList := PathSet.not_mem_empty
    refine iff_of_true ⟨fun p hp => absurd hp (hnone p), ?_⟩ ⟨?_, fun p hp => absurd hp (hnone p)⟩
    · exact List.nodup_nil
    · exact List.nodup_nil
  | @completed vs c _ hreach hover =>
    obtain ⟨hstaffed, haccounted⟩ := reaches_crew hreach
    have hnames : CopiesApart tree.current c.journal ↔
        NamesApart (Backups.new s.settings.workingDir s.settings.backupRoot) c.journal :=
      Crew.copiesApart_iff haccounted
    have hkept : CopiesApart tree.current c.journal → ∀ p ∈ c.work.report.modified.toList,
        (Restorable tree c.work.tree c.journal p ↔
          CopiedUnchanged tree.current ⟨tree.fileAt?, s.cache.get?⟩ c.journal p) := by
      intro hapart p hp
      obtain ⟨o, encoding, hw⟩ := (Crew.mem_modified hstaffed haccounted rfl).mp hp
      exact Crew.restorable_iff hstaffed haccounted rfl hout hcopies hapart hw
    constructor
    · rintro ⟨hrestorable, hapart⟩
      exact ⟨hnames.mp hapart, fun p hp => (hkept hapart p hp).mp (hrestorable p hp)⟩
    · rintro ⟨hnamesApart, hunchanged⟩
      have hapart := hnames.mpr hnamesApart
      exact ⟨fun p hp => (hkept hapart p hp).mpr (hunchanged p hp), hapart⟩

def FileTree.twoDocuments (outside : Text) : FileTree where
  entries := [(["w"], .directory), (["w", "tmp"], .directory), (["w", "docs"], .directory),
    (["w", "docs", "a.adoc"], .file "A &amp;\n".toUTF8),
    (["w", outside], .file "B &lt;\n".toUTF8)]
  current := ["w"]
  temporary := "/w/tmp"

def Payload.twoAlerts (outside : Text) : Text :=
  "\x7b\"a.adoc\":[\x7b\"Check\":\"EntityReference\",\"Line\":1,\"Column\":3," ++
    "\"Match\":\"&amp;\"\x7d],\"../" ++ outside ++ "\":[\x7b\"Check\":\"EntityReference\"," ++
    "\"Line\":1,\"Column\":3,\"Match\":\"&lt;\"\x7d]\x7d"

def Session.inDocs : Session :=
  new (Registry.ofList [Rule.entityReference]) { workingDir := "docs" }

theorem Session.originals_kept_of_different_names :
    let tree := FileTree.twoDocuments "b.adoc"
    let c := inDocs.served tree (.ok (Payload.twoAlerts "b.adoc")) .plain 40
    let out := inDocs.conclude .plain c.work c.isCutShort
    inDocs.Runs tree (.ok (Payload.twoAlerts "b.adoc")) .plain out c.journal ∧
      out.1.modified.toList = [("b.adoc" : Path), ("docs/a.adoc" : Path)] ∧
      NamesApart (Backups.new "docs" none) c.journal ∧
      ∀ p ∈ out.1.modified.toList,
        CopiedUnchanged tree.current ⟨tree.fileAt?, inDocs.cache.get?⟩ c.journal p := by
  intro tree c out
  let dir : Path := "/w/tmp/docfix-backup-aaaaaa"
  obtain ⟨hok, hover, hcopies, hdir, hplaces, hmodified, hapart⟩ :
      (inDocs.violations (.ok (Payload.twoAlerts "b.adoc"))).isOk ∧ c.isOver ∧
      (∀ x ∈ c.journal, x.2.losesCopy = false) ∧ out.1.backupDir = some dir ∧
      (∀ p ∈ out.1.processed.toList, ¬locate tree.current dir <+: locate tree.current p) ∧
      out.1.modified.toList = [("b.adoc" : Path), ("docs/a.adoc" : Path)] ∧
      ((Journal.copies c.journal).map fun x => locate tree.current x.2).Nodup := by
    decide +kernel
  have hruns : inDocs.Runs tree (.ok (Payload.twoAlerts "b.adoc")) .plain out c.journal :=
    runs_served hok hover
  have hout : OutOfBackups tree.current out.1.processed out.1.backupDir := by
    intro d hd
    rwa [← Option.some.inj (hdir.symm.trans hd)]
  have hrestorable : ∀ p ∈ out.1.modified.toList, Restorable tree out.2.2 c.journal p := by
    rw [hmodified]
    refine List.forall_mem_cons.mpr ⟨?_, List.forall_mem_singleton.mpr ?_⟩
    · refine .of_get? "/w/tmp/docfix-backup-aaaaaa/b.adoc" "B &lt;\n".toUTF8 ?_
      decide +kernel
    · refine .of_get? "/w/tmp/docfix-backup-aaaaaa/a.adoc" "A &amp;\n".toUTF8 ?_
      decide +kernel
  exact ⟨hruns, hmodified, (originals_kept_iff hruns hcopies hout).mp ⟨hrestorable, hapart⟩⟩

/-- Both files are kept as `a.adoc`, so the second copy is written over the first one. -/
theorem Session.original_lost : ¬∀ (s : Session) (tree : FileTree)
    (payload : Except LintError Text) (q : Request) (out : Report × Session × FileTree)
    (journal : Journal), s.Runs tree payload q out journal → q.dryRun = false →
      out.1.errors = [] → (∀ x ∈ journal, x.2.losesCopy = false) →
      (∀ p ∈ out.1.modified.toList, Restorable tree out.2.2 journal p) ∧
        CopiesApart tree.current journal := by
  intro h
  let tree := FileTree.twoDocuments "a.adoc"
  let c := inDocs.served tree (.ok (Payload.twoAlerts "a.adoc")) .plain 40
  let out := inDocs.conclude .plain c.work c.isCutShort
  obtain ⟨hok, hover, herrors, hcopies, hmodified, hgone⟩ :
      (inDocs.violations (.ok (Payload.twoAlerts "a.adoc"))).isOk ∧ c.isOver ∧
      out.1.errors = [] ∧ (∀ x ∈ c.journal, x.2.losesCopy = false) ∧
      ("a.adoc" : Path) ∈ out.1.modified.toList ∧
      ∀ x ∈ out.2.2.entries, x.2 ≠ .file "B &lt;\n".toUTF8 := by
    decide +kernel
  have hruns : inDocs.Runs tree (.ok (Payload.twoAlerts "a.adoc")) .plain out c.journal :=
    runs_served hok hover
  have hall := h _ _ _ _ _ _ hruns rfl herrors hcopies
  obtain ⟨target, content, -, hbefore, hafter⟩ := hall.1 "a.adoc" hmodified
  have hcontent : tree.fileAt? (locate tree.current "a.adoc") = some "B &lt;\n".toUTF8 := by
    rw [fileAt?_eq_some_iff]
    decide +kernel
  obtain rfl := Option.some.inj (hcontent.symm.trans hbefore)
  exact hgone _ (mem_entries_of_fileAt? (fileAt?_of_read hafter)) rfl

end Errata
