import Errata.Proofs.File.Backups
import Errata.Proofs.File.Document
import Errata.Proofs.Run.Schedule

/-!
# What the journal says

The journal of a run accounts for everything that the run leaves behind: the report is what the
events have noted in it, the files are what the copies and writes have made of the files before the
run, and the cache knows what it knew before and what has been read.
-/
namespace Errata

open FileTree

/-- What the files hold, by place, and which documents are known, by path. -/
structure Scene where
  files : Location → Option ByteArray
  documents : Path → Option Document

def Work.scene (w : Work) : Scene := ⟨w.tree.fileAt?, w.cache.get?⟩

namespace Event

variable (current : Location)

/-- The scene after an event about the file at `p`. -/
def replay (s : Scene) (p : Path) : Event → Scene
  | .read d => { s with documents := fun q => if p.same q then some d else s.documents q }
  | .copied (.ok target) =>
    { s with
      files := Function.update s.files (locate current target) (s.files (locate current p)) }
  | .written o encoding =>
    { s with
      files := Function.update s.files (locate current p) (encoding.encode? o.content) }
  | _ => s

/-- Where an event about the file at `p` puts bytes, if it does. -/
def place? (p : Path) : Event → Option Location
  | .copied (.ok target) => some (locate current target)
  | .written _ _ => some (locate current p)
  | _ => none

/-- What an event about the file at `p` says of the scene before it. A document that is read is
known, or it is what the file holds. -/
def IsTrue (s : Scene) (p : Path) : Event → Prop
  | .read d => s.documents p = some d ∨
      s.documents p = none ∧ Document.Decodes (s.files (locate current p)) d
  | .copied (.ok _) => (s.files (locate current p)).isSome
  | .written o encoding => (encoding.encode? o.content).isSome
  | _ => True

theorem files_replay {e : Event} {p : Path} {l : Location} (h : e.place? current p ≠ some l)
    (s : Scene) : (e.replay current s p).files l = s.files l := by
  cases e with
  | copied place =>
    cases place with
    | error e => rfl
    | ok target => exact Function.update_of_ne (fun heq => h (congrArg some heq.symm)) _ _
  | written o encoding => exact Function.update_of_ne (fun heq => h (congrArg some heq.symm)) _ _
  | _ => rfl

end Event

namespace Journal

variable (current : Location)

def replay (s : Scene) (j : Journal) : Scene := j.foldl (fun s x => x.2.replay current s x.1) s

/-- Every event is true of the scene that those before it have left. -/
def IsTrue : Scene → Journal → Prop
  | _, [] => True
  | s, x :: j => x.2.IsTrue current s x.1 ∧ IsTrue (x.2.replay current s x.1) j

def about (j : Journal) (p : Path) : List Event := (j.filter (·.1 = p)).map (·.2)

theorem replay_append (s : Scene) (j k : Journal) :
    replay current s (j ++ k) = replay current (replay current s j) k :=
  List.foldl_append

theorem documents_replay {s : Scene} {j : Journal} {p : Path}
    (h : ∀ x ∈ j, ∀ d, x.2 = .read d → ¬x.1.same p) :
    (replay current s j).documents p = s.documents p := by
  induction j generalizing s with
  | nil => rfl
  | cons x j ih =>
    obtain ⟨hx, hj⟩ := List.forall_mem_cons.mp h
    refine (ih hj).trans ?_
    obtain ⟨q, e⟩ := x
    cases e with
    | read d => simp [Event.replay, hx d rfl]
    | copied place => cases place <;> rfl
    | _ => rfl

theorem files_replay_of_events {s : Scene} {j : Journal} {l : Location}
    (h : ∀ x ∈ j, ∀ s, (x.2.replay current s x.1).files l = s.files l) :
    (replay current s j).files l = s.files l := by
  induction j generalizing s with
  | nil => rfl
  | cons x j ih =>
    obtain ⟨hx, hj⟩ := List.forall_mem_cons.mp h
    exact (ih hj).trans (hx s)

theorem files_replay {s : Scene} {j : Journal} {l : Location}
    (h : ∀ x ∈ j, x.2.place? current x.1 ≠ some l) : (replay current s j).files l = s.files l :=
  files_replay_of_events current fun x hx s => Event.files_replay current (h x hx) s

theorem isTrue_append (s : Scene) (j k : Journal) :
    IsTrue current s (j ++ k) ↔
      IsTrue current s j ∧ IsTrue current (replay current s j) k := by
  induction j generalizing s with
  | nil => simp [IsTrue, replay]
  | cons x j ih => simp [IsTrue, replay, ih, and_assoc]

theorem isSome_replay {current : Location} {s : Scene} {j : Journal} (h : IsTrue current s j)
    {l : Location} (hl : (s.files l).isSome) : ((replay current s j).files l).isSome := by
  induction j generalizing s with
  | nil => exact hl
  | cons x j ih =>
    obtain ⟨hx, hj⟩ := h
    refine ih hj ?_
    obtain ⟨p, e⟩ := x
    cases e with
    | copied place =>
      cases place with
      | error e => exact hl
      | ok target =>
        have hsome : (s.files (locate current p)).isSome := hx
        by_cases heq : l = locate current target
        · simpa [Event.replay, heq] using hsome
        · simpa [Event.replay, Function.update_of_ne heq] using hl
    | written o encoding =>
      have hsome : (encoding.encode? o.content).isSome := hx
      by_cases heq : l = locate current p
      · simpa [Event.replay, heq] using hsome
      · simpa [Event.replay, Function.update_of_ne heq] using hl
    | _ => exact hl

theorem IsTrue.of_split {s : Scene} {before after : Journal} {p : Path} {e : Event}
    {current : Location} (h : IsTrue current s (before ++ (p, e) :: after)) :
    e.IsTrue current (replay current s before) p :=
  ((isTrue_append current s before _).mp h).2.1

theorem mem_about {j : Journal} {p : Path} {e : Event} : e ∈ about j p ↔ (p, e) ∈ j := by
  simp [about]

theorem any_about {j : Journal} {p : Path} {f : Event → Bool} :
    (about j p).any f ↔ ∃ e, (p, e) ∈ j ∧ f e := by
  simp [List.any_eq_true, mem_about]

theorem about_append (j k : Journal) (p : Path) : about (j ++ k) p = about j p ++ about k p := by
  simp [about]

theorem about_self (p : Path) (events : List Event) : about (events.map (p, ·)) p = events := by
  simp [about, List.filter_map, Function.comp_def]

theorem about_of_ne {p q : Path} (h : p ≠ q) (events : List Event) :
    about (events.map (p, ·)) q = [] := by
  simp [about, List.filter_map, Function.comp_def, h]

theorem about_eq_nil {j : Journal} {p : Path} (h : ∀ x ∈ j, x.1 ≠ p) : about j p = [] := by
  simpa [about] using h

end Journal

/-- What happens between two states of the work is what a journal says. -/
structure Accounted (w w' : Work) (j : Journal) : Prop where
  report : w'.report = w.report.noteAll j
  tree : FileTree.Extends w.tree w'.tree
  scene : w'.scene = Journal.replay w.tree.current w.scene j
  isTrue : Journal.IsTrue w.tree.current w.scene j
  cache : Cache.Extends w.cache w'.cache
  read : ∀ p d, (p, .read d) ∈ j → w'.cache.get? p = some d
  backups : Backups.Follows w.backups w'.backups
  named : w'.backups.IsNamed
  copied : ∀ p target, (p, .copied (.ok target)) ∈ j → ∃ dir, w'.backups.dir = some dir ∧
    target = dir.join (w.backups.placeOf p) ∧
    w'.tree.resolve target = .ok (locate w.tree.current dir ++ w.backups.namesOf p)

namespace Accounted

variable {w₀ w w' : Work} {j k : Journal}

theorem refl (h : w.backups.IsNamed) : Accounted w w [] where
  report := rfl
  tree := .refl _
  scene := rfl
  isTrue := trivial
  cache := .refl _
  read := by simp
  backups := .refl _
  named := h
  copied := by simp

theorem trans (h : Accounted w₀ w j) (h' : Accounted w w' k) : Accounted w₀ w' (j ++ k) where
  report := by rw [h'.report, h.report, Report.noteAll_append]
  tree := h.tree.trans h'.tree
  scene := by rw [h'.scene, h.scene, h.tree.current, Journal.replay_append]
  isTrue := by
    refine (Journal.isTrue_append _ _ _ _).mpr ⟨h.isTrue, ?_⟩
    rw [← h.scene, ← h.tree.current]
    exact h'.isTrue
  cache := h.cache.trans h'.cache
  read p d hm := by
    rcases List.mem_append.mp hm with hm | hm
    · exact h'.cache p d (h.read p d hm)
    · exact h'.read p d hm
  backups := h.backups.trans h'.backups
  named := h'.named
  copied p target hm := by
    rcases List.mem_append.mp hm with hm | hm
    · obtain ⟨dir, hdir, htarget, hresolve⟩ := h.copied p target hm
      exact ⟨dir, h'.backups.dir dir hdir, htarget, h'.tree.resolve hresolve⟩
    · obtain ⟨dir, hdir, htarget, hresolve⟩ := h'.copied p target hm
      refine ⟨dir, hdir, ?_, ?_⟩
      · rw [htarget, Backups.placeOf, h.backups.namesOf, Backups.placeOf]
      · rw [hresolve, h.tree.current, h.backups.namesOf]

theorem interrupt (h : w.backups.IsNamed) : Accounted w { w with interrupt := true } [] :=
  { refl h with }

theorem note (h : w.backups.IsNamed) (p : Path) (e : Event)
    (hscene : ∀ s, e.replay w.tree.current s p = s)
    (htrue : ∀ s, e.IsTrue w.tree.current s p)
    (hread : ∀ d, e ≠ .read d) (hcopied : ∀ target, e ≠ .copied (.ok target)) :
    Accounted w (w.note p e) [(p, e)] where
  report := rfl
  tree := .refl _
  scene := (hscene _).symm
  isTrue := ⟨htrue _, trivial⟩
  cache := .refl _
  read q d hm := by
    obtain ⟨-, rfl⟩ := Prod.mk.inj (List.mem_singleton.mp hm)
    exact absurd rfl (hread d)
  backups := .refl _
  named := h
  copied q target hm := by
    obtain ⟨-, rfl⟩ := Prod.mk.inj (List.mem_singleton.mp hm)
    exact absurd rfl (hcopied target)

theorem load (h : w.backups.IsNamed) {p : Path} {d : Document} {cache : Cache}
    (hread : w.cache.read w.tree p = (.ok d, cache)) :
    Accounted w { w with cache := cache } [(p, .read d)] where
  report := rfl
  tree := .refl _
  scene := by
    simp only [Work.scene, Cache.get?_read hread]
    rfl
  isTrue := ⟨Cache.source_of_read hread, trivial⟩
  cache := Cache.extends_of_read hread
  read q e hm := by
    obtain ⟨rfl, he⟩ := Prod.mk.inj (List.mem_singleton.mp hm)
    obtain rfl := Event.read.inj he
    simp [Cache.get?_read hread, Path.same]
  backups := .refl _
  named := h
  copied q target hm := by cases (Prod.mk.inj (List.mem_singleton.mp hm)).2

theorem backUp (h : w.backups.IsNamed) {p : Path} {place : Except BackupError Path}
    {backups : Backups} {tree : FileTree}
    (hb : w.backups.backup w.tree p = (place, backups, tree)) :
    Accounted w ({ w with backups := backups, tree := tree }.note p (.copied place))
      [(p, .copied place)] := by
  obtain ⟨hfollows, hnamed, hextends, hplace⟩ := Backups.backup_spec hb h
  cases place with
  | error e =>
    refine ⟨rfl, hextends, ?_, ⟨trivial, trivial⟩, .refl _, ?_, hfollows, hnamed, ?_⟩
    · change (⟨tree.fileAt?, w.cache.get?⟩ : Scene) = ⟨w.tree.fileAt?, w.cache.get?⟩
      rw [hplace]
    · intro q d hm
      cases (Prod.mk.inj (List.mem_singleton.mp hm)).2
    · intro q target hm
      cases (Prod.mk.inj (List.mem_singleton.mp hm)).2
  | ok target =>
    obtain ⟨dir, hdir, rfl, hresolve, hsome, hfiles⟩ := hplace
    refine ⟨rfl, hextends, ?_, ⟨hsome, trivial⟩, .refl _, ?_, hfollows, hnamed, ?_⟩
    · change (⟨tree.fileAt?, w.cache.get?⟩ : Scene) = _
      rw [hfiles, ← Backups.locate_copy _ (hnamed dir hdir)]
      rfl
    · intro q d hm
      cases (Prod.mk.inj (List.mem_singleton.mp hm)).2
    · intro q target hm
      obtain ⟨rfl, htarget⟩ := Prod.mk.inj (List.mem_singleton.mp hm)
      obtain rfl := Except.ok.inj (Event.copied.inj htarget)
      exact ⟨dir, hdir, rfl, hresolve⟩

theorem write (h : w.backups.IsNamed) {p : Path} {o : Edit.Outcome} {encoding : Encoding}
    {tree : FileTree} (hw : Document.write w.tree p o.content encoding = .ok tree) :
    Accounted w ({ w with tree := tree }.note p (.written o encoding))
      [(p, .written o encoding)] := by
  obtain ⟨hsome, hextends, hfiles⟩ := Document.write_eq_ok hw
  refine ⟨rfl, hextends, ?_, ⟨hsome, trivial⟩, .refl _, ?_, .refl _, h, ?_⟩
  · change (⟨tree.fileAt?, w.cache.get?⟩ : Scene) = _
    rw [hfiles]
    rfl
  · intro q d hm
    cases (Prod.mk.inj (List.mem_singleton.mp hm)).2
  · intro q target hm
    cases (Prod.mk.inj (List.mem_singleton.mp hm)).2

/-- One step of a unit is what its events say. -/
theorem advance (h : w.backups.IsNamed) {planner : Planner} {dryRun : Bool} {u : FileUnit}
    {st : Stage} {a : Advance} (ha : w.advance planner dryRun u st = some a) :
    Accounted w a.work (a.events.map (u.file, ·)) := by
  cases st with
  | begun =>
    simp only [Work.advance] at ha
    split at ha
    · next hread =>
      obtain rfl := Option.some.inj ha
      obtain rfl := Cache.read_eq_error hread
      exact refl h
    · next hread =>
      obtain rfl := Option.some.inj ha
      exact load h hread
  | refused e =>
    obtain rfl := Option.some.inj ha
    exact note h _ _ (fun _ => rfl) (fun _ => trivial) (by simp) (by simp)
  | loaded d =>
    obtain rfl := Option.some.inj ha
    exact { refl h with }
  | planned x =>
    simp only [Work.advance] at ha
    split at ha <;> obtain rfl := Option.some.inj ha
    · exact note h _ .dropped (fun _ => rfl) (fun _ => trivial) (by simp) (by simp)
    · exact refl h
  | cleared x =>
    simp only [Work.advance] at ha
    split at ha <;> obtain rfl := Option.some.inj ha
    · exact note h _ _ (fun _ => rfl) (fun _ => trivial) (by simp) (by simp)
    · exact backUp h rfl
  | copied x =>
    simp only [Work.advance] at ha
    split at ha
    · obtain rfl := Option.some.inj ha
      exact note h _ _ (fun _ => rfl) (fun _ => trivial) (by simp) (by simp)
    · split at ha <;> obtain rfl := Option.some.inj ha
      · next hw => exact write h hw
      · exact note h _ _ (fun _ => rfl) (fun _ => trivial) (by simp) (by simp)
  | ended c => cases ha

theorem since {planner : Planner} {dryRun : Bool} {c c' : Crew}
    (hreach : Crew.Reaches planner dryRun c c') (h : c.work.backups.IsNamed) :
    ∃ j, c'.journal = c.journal ++ j ∧ Accounted c.work c'.work j := by
  induction hreach with
  | refl => exact ⟨[], (List.append_nil _).symm, refl h⟩
  | tail _ hstep ih =>
    obtain ⟨j, hj, ih⟩ := ih
    cases hstep with
    | interrupt => exact ⟨j, hj, by simpa using ih.trans (interrupt ih.named)⟩
    | advance _ _ ha =>
      refine ⟨_, ?_, ih.trans (advance ih.named ha)⟩
      rw [← List.append_assoc, ← hj]
      rfl
    | start | skip | join => exact ⟨j, hj, ih⟩

/-- A whole run is what its journal says. -/
theorem reaches {planner : Planner} {dryRun : Bool} {c c' : Crew}
    (hreach : Crew.Reaches planner dryRun c c') (h : Accounted w c.work c.journal) :
    Accounted w c'.work c'.journal := by
  obtain ⟨j, hj, hsince⟩ := since hreach h.named
  rw [hj]
  exact h.trans hsince

theorem retains (h : Accounted w w' j) : Retains w.tree w'.tree where
  toExtends := h.tree
  file l hl := by
    have hfiles := congrArg Scene.files h.scene
    change w'.tree.fileAt? = _ at hfiles
    rw [hfiles]
    exact Journal.isSome_replay h.isTrue hl

end Accounted

end Errata
