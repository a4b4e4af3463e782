import Errata.Proofs.Alert.Grouping
import Errata.Proofs.Run.Journal

/-!
# The units of a run

Whatever the schedule, units start in their order and each starts once. The events about a file are
those of its unit and no other, and they are a history of that unit up to the stage where it stands.
-/
namespace Errata

namespace Crew

def tasks (c : Crew) : List Task := c.joined ++ c.running

/-- The units of a run, started or not, and what the journal says of them. -/
structure Staffed (planner : Planner) (dryRun : Bool) (units : List FileUnit) (c : Crew) :
    Prop where
  all : (c.tasks.map Task.unit ++ c.waiting).Perm units
  order : c.waiting <:+ units
  ended : ∀ t ∈ c.joined, t.stage.isEnded
  history : ∀ t ∈ c.tasks,
    History planner dryRun t.unit t.stage (Journal.about c.journal t.unit.file)
  known : ∀ x ∈ c.journal, ∃ t ∈ c.tasks, t.unit.file = x.1

namespace Staffed

variable {planner : Planner} {dryRun : Bool} {units : List FileUnit} {c c' : Crew}

theorem nodup (h : Staffed planner dryRun units c) (hfiles : (units.map FileUnit.file).Nodup) :
    ((c.tasks.map Task.unit ++ c.waiting).map FileUnit.file).Nodup :=
  (h.all.map _).nodup_iff.mpr hfiles

theorem unit_mem (h : Staffed planner dryRun units c) {t : Task} (ht : t ∈ c.tasks) :
    t.unit ∈ units :=
  h.all.mem_iff.mp (List.mem_append_left _ (List.mem_map_of_mem ht))

theorem unstarted (h : Staffed planner dryRun units c) (hfiles : (units.map FileUnit.file).Nodup)
    {u : FileUnit} (hu : u ∈ c.waiting) : Journal.about c.journal u.file = [] := by
  apply Journal.about_eq_nil
  intro x hx heq
  obtain ⟨t, ht, hfile⟩ := h.known x hx
  have hnodup := h.nodup hfiles
  rw [List.map_append, List.map_map] at hnodup
  have hdisjoint := (List.nodup_append.mp hnodup).2.2
  exact hdisjoint _ (List.mem_map_of_mem ht) _ (List.mem_map_of_mem hu) (hfile.trans heq)

theorem start (h : Staffed planner dryRun units c) (hfiles : (units.map FileUnit.file).Nodup)
    {u : FileUnit} {us : List FileUnit} {n : ℕ} (hw : c.waiting = u :: us) :
    Staffed planner dryRun units
      { c with slots := n, waiting := us, running := c.running ++ [⟨u, .begun⟩] } where
  all := by
    have hall := h.all
    rw [hw] at hall
    simpa [tasks] using hall
  order := (List.suffix_cons u us).trans (hw ▸ h.order)
  ended := h.ended
  history t ht := by
    rcases List.mem_append.mp ht with ht | ht
    · exact h.history t (List.mem_append_left _ ht)
    · rcases List.mem_append.mp ht with ht | ht
      · exact h.history t (List.mem_append_right _ ht)
      · obtain rfl := List.mem_singleton.mp ht
        have hnone : Journal.about c.journal u.file = [] := h.unstarted hfiles (by simp [hw])
        rw [hnone]
        exact .begun
  known x hx := by
    obtain ⟨t, ht, hfile⟩ := h.known x hx
    refine ⟨t, ?_, hfile⟩
    rcases List.mem_append.mp ht with ht | ht <;> simp [tasks, ht]

theorem tasks_perm {before after : List Task} {t : Task} (hr : c.running = before ++ t :: after) :
    c.tasks.Perm (t :: (c.joined ++ (before ++ after))) := by
  rw [tasks, hr, ← List.append_assoc, ← List.append_assoc]
  exact List.perm_middle

theorem tasks_join_perm {before after : List Task} {t : Task} {n : ℕ}
    (hr : c.running = before ++ t :: after) :
    (Crew.tasks { c with
      running := before ++ after, joined := c.joined ++ [t], slots := n }).Perm c.tasks := by
  refine List.Perm.trans ?_ (tasks_perm hr).symm
  rw [tasks, List.append_assoc]
  exact List.perm_middle

theorem file_ne (h : Staffed planner dryRun units c) (hfiles : (units.map FileUnit.file).Nodup)
    {before after : List Task} {t s : Task} (hr : c.running = before ++ t :: after)
    (hs : s ∈ c.joined ++ (before ++ after)) : t.unit.file ≠ s.unit.file := by
  have hnodup := h.nodup hfiles
  rw [List.map_append, List.map_map] at hnodup
  have htasks := ((tasks_perm hr).map (FileUnit.file ∘ Task.unit)).nodup_iff.mp
    (List.nodup_append.mp hnodup).1
  rw [List.map_cons, List.nodup_cons] at htasks
  intro heq
  exact htasks.1 (List.mem_map.mpr ⟨s, hs, heq.symm⟩)

theorem advance (h : Staffed planner dryRun units c) (hfiles : (units.map FileUnit.file).Nodup)
    {before after : List Task} {u : FileUnit} {st : Stage} {a : Advance}
    (hr : c.running = before ++ ⟨u, st⟩ :: after)
    (ha : c.work.advance planner dryRun u st = some a) :
    Staffed planner dryRun units (c.advanced before u after a) := by
  have hold := tasks_perm hr
  have hnew : (c.advanced before u after a).tasks.Perm
      (⟨u, a.stage⟩ :: (c.joined ++ (before ++ after))) := tasks_perm rfl
  constructor
  case all =>
    have hunits : ((c.advanced before u after a).tasks.map Task.unit).Perm
        (c.tasks.map Task.unit) :=
      (hnew.map Task.unit).trans (hold.map Task.unit).symm
    exact (hunits.append_right _).trans h.all
  case order => exact h.order
  case ended => exact h.ended
  case history =>
    intro t ht
    change History planner dryRun t.unit t.stage
      (Journal.about (c.journal ++ a.events.map (u.file, ·)) t.unit.file)
    rw [Journal.about_append]
    rcases List.mem_cons.mp (hnew.mem_iff.mp ht) with rfl | ht
    · have hmem : ⟨u, st⟩ ∈ c.tasks := hold.mem_iff.mpr List.mem_cons_self
      rw [Journal.about_self]
      exact (h.history _ hmem).advance ha
    · rw [Journal.about_of_ne (h.file_ne hfiles hr ht), List.append_nil]
      exact h.history t (hold.mem_iff.mpr (List.mem_cons_of_mem _ ht))
  case known =>
    intro x hx
    rcases List.mem_append.mp hx with hx | hx
    · obtain ⟨t, ht, hfile⟩ := h.known x hx
      rcases List.mem_cons.mp (hold.mem_iff.mp ht) with rfl | ht
      · exact ⟨_, hnew.mem_iff.mpr List.mem_cons_self, hfile⟩
      · exact ⟨t, hnew.mem_iff.mpr (List.mem_cons_of_mem _ ht), hfile⟩
    · obtain ⟨e, -, rfl⟩ := List.mem_map.mp hx
      exact ⟨_, hnew.mem_iff.mpr List.mem_cons_self, rfl⟩

theorem join (h : Staffed planner dryRun units c) {before after : List Task} {t : Task}
    {n : ℕ} (hr : c.running = before ++ t :: after) (ht : t.stage.isEnded) :
    Staffed planner dryRun units
      { c with running := before ++ after, joined := c.joined ++ [t], slots := n } := by
  have hperm := tasks_join_perm (n := n) hr
  constructor
  case all => exact ((hperm.map Task.unit).append_right _).trans h.all
  case order => exact h.order
  case ended =>
    intro s hs
    rcases List.mem_append.mp hs with hs | hs
    · exact h.ended s hs
    · rwa [List.mem_singleton.mp hs]
  case history => exact fun s hs => h.history s (hperm.mem_iff.mp hs)
  case known =>
    intro x hx
    obtain ⟨s, hs, hfile⟩ := h.known x hx
    exact ⟨s, hperm.mem_iff.mpr hs, hfile⟩

theorem reaches (h : Staffed planner dryRun units c) (hreach : Reaches planner dryRun c c')
    (hfiles : (units.map FileUnit.file).Nodup) :
    Staffed planner dryRun units c' := by
  induction hreach with
  | refl => exact h
  | tail _ hstep ih =>
    cases hstep with
    | interrupt | skip => exact { ih with }
    | start _ _ hw => exact ih.start hfiles hw
    | advance hr _ ha => exact ih.advance hfiles hr ha
    | join _ hr ht => exact ih.join hr ht

/-- When a run is over, every unit has ended or was never started. -/
theorem concluded (h : Staffed planner dryRun units c) (hfiles : (units.map FileUnit.file).Nodup)
    (hover : c.isOver) {u : FileUnit} (hu : u ∈ units) :
    (∃ k, History planner dryRun u (.ended k) (Journal.about c.journal u.file)) ∨
      Journal.about c.journal u.file = [] := by
  have hidle : c.running = [] := by
    have := hover
    simp only [isOver, Bool.and_eq_true, List.isEmpty_iff] at this
    exact this.2
  rcases List.mem_append.mp (h.all.mem_iff.mpr hu) with hu | hu
  · obtain ⟨t, ht, rfl⟩ := List.mem_map.mp hu
    have hended : t.stage.isEnded := by
      rw [tasks, hidle, List.append_nil] at ht
      exact h.ended t ht
    have hhistory := h.history t ht
    cases hst : t.stage with
    | ended k => exact .inl ⟨k, hst ▸ hhistory⟩
    | _ => simp [hst, Stage.isEnded] at hended
  · exact .inr (h.unstarted hfiles hu)

end Staffed

end Crew

namespace Session

theorem units_distinct (vs : List Violation) :
    (units vs).Pairwise fun u v => u.file.components ≠ v.file.components :=
  List.pairwise_map.mpr (Group.isByFile_byFile vs).distinct

theorem unit_eq {vs : List Violation} {u v : FileUnit} (hu : u ∈ units vs) (hv : v ∈ units vs)
    (h : u.file.components = v.file.components) : u = v := by
  have hdistinct := units_distinct vs
  refine List.Pairwise.forall_of_forall_of_flip
    (R := fun u v : FileUnit => u.file.components = v.file.components → u = v)
    (fun _ _ _ => rfl) ?_ ?_ hu hv h
  · exact hdistinct.imp fun hne heq => absurd heq hne
  · exact hdistinct.imp fun hne heq => absurd heq.symm hne

theorem nodup_files (vs : List Violation) : ((units vs).map FileUnit.file).Nodup := by
  rw [List.nodup_iff_pairwise_ne, List.pairwise_map]
  refine (units_distinct vs).imp ?_
  intro u v hne heq
  exact hne (by rw [heq])

theorem mem_units {vs : List Violation} {u : FileUnit} (h : u ∈ units vs) :
    u.violations = vs.filter (·.file.same u.file) ∧ ∃ v ∈ vs, v.file = u.file := by
  obtain ⟨g, hg, rfl⟩ := List.mem_map.mp h
  exact ⟨(Group.isByFile_byFile vs).violations g hg, (Group.isByFile_byFile vs).named g hg⟩

/-- What holds of a crew that comes from the start of a run. -/
theorem reaches_crew {s : Session} {tree : FileTree} {q : Request} {vs : List Violation}
    {planner : Planner} {dryRun : Bool} {c : Crew}
    (h : Crew.Reaches planner dryRun (s.crew tree q vs) c) :
    Crew.Staffed planner dryRun (units vs) c ∧
      Accounted (s.work tree q vs) c.work c.journal := by
  have hstaffed : Crew.Staffed planner dryRun (units vs) (s.crew tree q vs) :=
    ⟨.refl _, List.suffix_refl _, by simp [crew], by simp [Crew.tasks, crew], by simp [crew]⟩
  have hnamed : (s.crew tree q vs).work.backups.IsNamed := by
    intro dir hdir
    cases hdir
  exact ⟨hstaffed.reaches h (nodup_files vs), Accounted.reaches h (.refl hnamed)⟩

end Session

end Errata
