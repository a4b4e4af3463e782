import Errata.Proofs.Run.Interruption

/-!
# Files are independent of each other

A run that is not interrupted does to each file what the file, its violations and the rules say, and
nothing else has a part in that: neither the other files nor the schedule. The report is the sum of
the shares that the files have in it.
-/
namespace Errata

open FileTree

/-- What a run says of one file, and what the path of the file names after it. -/
structure Share where
  processed : Bool
  modified : Bool
  applied : List Fix
  skipped : List Fix
  errors : List Text
  found : Except Cause Entry

namespace Event

def applied : Event → List Fix
  | .unchanged o | .written o _ => o.applied
  | _ => []

def skipped : Event → List Fix
  | .left fixes => fixes
  | .unchanged o | .written o _ => o.skipped
  | .unwritten o _ => o.skipped ++ o.applied
  | _ => []

def errors (p : Path) (e : Event) : List Text :=
  (e.error?.map fun e => p.text ++ ": " ++ e.message).toList

/-- What an event says of the file at `p`, which could be read with the result `r`. -/
def Reports (r : Except DocumentError Document) (p : Path) : Event → Prop
  | .read d => r = .ok d
  | .unread e => r = .error e
  | .unwritten o e => ∀ d, r = .ok d →
      d.encoding.encode? o.content = none ∧ e = .notEncodable p d.encoding
  | _ => True

end Event

/-- What some events about the file at `p` have made the report say of it. -/
def Share.ofEvents (p : Path) (events : List Event) (found : Except Cause Entry) : Share where
  processed := events.any Event.processes
  modified := events.any Event.writes
  applied := events.flatMap Event.applied
  skipped := events.flatMap Event.skipped
  errors := events.flatMap (Event.errors p)
  found := found

/-- The share that the file at `p` has had in a run. -/
def Share.taken (out : Report × Session × FileTree) (journal : Journal) (p : Path) : Share :=
  { Share.ofEvents p (journal.about p) (out.2.2.find p) with
    processed := p ∈ out.1.processed.toList
    modified := p ∈ out.1.modified.toList }

def FileUnit.share (planner : Planner) (limit : ℕ) (u : FileUnit) (found : Except Cause Entry) :
    Share :=
  let error (e : DocumentError) : List Text := [u.file.text ++ ": " ++ e.message]
  match Document.ofFound limit u.file found with
  | .error e => ⟨false, false, [], [], error e, found⟩
  | .ok d =>
    let x := u.prepared planner d
    if x.fixes.isEmpty then ⟨true, false, [], [], [], found⟩
    else if x.outcome.content = d.text then
      ⟨true, false, x.outcome.applied, x.outcome.skipped, [], found⟩
    else match d.encoding.encode? x.outcome.content with
      | some content =>
        ⟨true, true, x.outcome.applied, x.outcome.skipped, [], .ok (.file content)⟩
      | none =>
        ⟨true, false, [], x.outcome.skipped ++ x.outcome.applied,
          error (.notEncodable u.file d.encoding), found⟩

/-- A report has what `general` says and the shares of its units, and nothing else. -/
structure Report.IsSumOf (r : Report) (general : List Text) (share : FileUnit → Share) :
    Prop where
  processed : r.processed.toList.Perm
    (((Session.units r.violations).filter fun u => (share u).processed).map FileUnit.file)
  modified : r.modified.toList.Perm
    (((Session.units r.violations).filter fun u => (share u).modified).map FileUnit.file)
  applied : r.applied.Perm ((Session.units r.violations).flatMap fun u => (share u).applied)
  skipped : r.skipped.Perm ((Session.units r.violations).flatMap fun u => (share u).skipped)
  errors : r.errors.Perm
    (general ++ (Session.units r.violations).flatMap fun u => (share u).errors)

/-- Two reports list the same, if not in the same order. -/
structure Report.Alike (r r' : Report) : Prop where
  processed : r'.processed = r.processed
  modified : r'.modified = r.modified
  applied : r'.applied.Perm r.applied
  skipped : r'.skipped.Perm r.skipped
  errors : r'.errors.Perm r.errors

/-- No two paths of the units lead to one place, and the backups keep off them: none lies in the
backup directory, and where nothing was on the way of one, nothing has been made. -/
structure FilesApart (before after : FileTree) (dir : Option Path) (us : List FileUnit) :
    Prop where
  places : ∀ u ∈ us, ∀ v ∈ us,
    locate before.current u.file = locate before.current v.file → u.file = v.file
  copies : ∀ u ∈ us, ∀ d, dir = some d →
    ¬locate before.current d <+: locate before.current u.file
  missing : ∀ u ∈ us, ∀ l ∈ way before.current u.file,
    before.get? l = none → after.get? l = none

theorem FilesApart.of_dir {before after : FileTree} {dir : Option Path} {d : Path}
    {us : List FileUnit} (hdir : dir = some d)
    (hplaces : ∀ u ∈ us, ∀ v ∈ us,
      locate before.current u.file = locate before.current v.file → u.file = v.file)
    (hcopies : ∀ u ∈ us, ¬locate before.current d <+: locate before.current u.file)
    (hmissing : ∀ u ∈ us, ∀ l ∈ way before.current u.file,
      before.get? l = none → after.get? l = none) : FilesApart before after dir us := by
  refine ⟨hplaces, fun u hu e he => ?_, hmissing⟩
  obtain rfl := Option.some.inj (hdir.symm.trans he)
  exact hcopies u hu

/-- Nothing but its own writes puts bytes at the place of the file at `p`. -/
def Journal.OnlyOwn (current : Location) (j : Journal) (p : Path) : Prop :=
  ∀ x ∈ j, x.2.place? current x.1 = some (locate current p) → x.1 = p ∧ x.2.writes

theorem Journal.OnlyOwn.written {current : Location} {j : Journal} {p : Path}
    (h : OnlyOwn current j p) {x : Path × Event} (hx : x ∈ j)
    (hplace : x.2.place? current x.1 = some (locate current p)) :
    ∃ o encoding, x = (p, .written o encoding) := by
  obtain ⟨hfile, hwrites⟩ := h x hx hplace
  obtain ⟨q, e⟩ := x
  obtain rfl : q = p := hfile
  cases e with
  | written o encoding => exact ⟨o, encoding, rfl⟩
  | _ => cases hwrites

namespace Report

theorem noteAll_applied (r : Report) (j : Journal) :
    (r.noteAll j).applied = r.applied ++ j.flatMap fun x => x.2.applied := by
  induction j generalizing r with
  | nil => simp [noteAll]
  | cons x j ih =>
    refine (ih _).trans ?_
    obtain ⟨p, e⟩ := x
    cases e <;> simp [note, Event.applied]

theorem noteAll_skipped (r : Report) (j : Journal) :
    (r.noteAll j).skipped = r.skipped ++ j.flatMap fun x => x.2.skipped := by
  induction j generalizing r with
  | nil => simp [noteAll]
  | cons x j ih =>
    refine (ih _).trans ?_
    obtain ⟨p, e⟩ := x
    cases e <;> simp [note, Event.skipped]

theorem IsSumOf.alike {r r' : Report} {general : List Text} {share share' : FileUnit → Share}
    (h : r.IsSumOf general share) (h' : r'.IsSumOf general share')
    (hviolations : r'.violations = r.violations)
    (hshare : ∀ u ∈ Session.units r.violations, share' u = share u) : r.Alike r' := by
  obtain ⟨hprocessed, hmodified, happlied, hskipped, herrors⟩ := h
  obtain ⟨hprocessed', hmodified', happlied', hskipped', herrors'⟩ := h'
  rw [hviolations] at hprocessed' hmodified' happlied' hskipped' herrors'
  have hlists : ∀ {α : Type} (g : Share → List α),
      ((Session.units r.violations).flatMap fun u => g (share' u)) =
        (Session.units r.violations).flatMap fun u => g (share u) :=
    fun g => List.flatMap_congr fun u hu => by rw [hshare u hu]
  have hfiles : ∀ f : Share → Bool, ((Session.units r.violations).filter fun u => f (share' u)) =
      (Session.units r.violations).filter fun u => f (share u) :=
    fun f => List.filter_congr fun u hu => by rw [hshare u hu]
  constructor
  case processed => exact PathSet.eq_of_perm ((hfiles _ ▸ hprocessed').trans hprocessed.symm)
  case modified => exact PathSet.eq_of_perm ((hfiles _ ▸ hmodified').trans hmodified.symm)
  case applied => exact (hlists _ ▸ happlied').trans happlied.symm
  case skipped => exact (hlists _ ▸ hskipped').trans hskipped.symm
  case errors => exact (hlists _ ▸ herrors').trans herrors.symm

end Report

theorem Journal.errors_eq_flatMap (j : Journal) :
    j.errors = j.flatMap fun x => x.2.errors x.1 :=
  List.filterMap_eq_flatMap_toList _ _

/-- How a step of a unit bears out what its events say. It does so if the unit, when it begins, reads
what could be read before the run, and if it can write that file unless the encoding forbids. -/
theorem Work.reports_of_advance {planner : Planner} {dryRun : Bool} {u : FileUnit} {w : Work}
    {st : Stage} {a : Advance} (ha : w.advance planner dryRun u st = some a)
    {r : Except DocumentError Document}
    (hbegun : st = .begun → (w.cache.read w.tree u.file).1 = r)
    (hrefused : ∀ e, st = .refused e → r = .error e)
    (hcopied : ∀ x, st = .copied x → ∃ content,
      r = .ok x.document ∧ w.tree.find u.file = .ok (.file content)) :
    (∀ e ∈ a.events, e.Reports r u.file) ∧ ∀ e, a.stage = .refused e → r = .error e := by
  cases st with
  | begun =>
    have hr := hbegun rfl
    simp only [advance] at ha
    split at ha
    · next hread =>
      obtain rfl := Option.some.inj ha
      rw [hread] at hr
      exact ⟨by simp, fun e he => by rw [← hr, Stage.refused.inj he]⟩
    · next hread =>
      obtain rfl := Option.some.inj ha
      rw [hread] at hr
      exact ⟨List.forall_mem_singleton.mpr hr.symm, by simp⟩
  | refused e =>
    obtain rfl := Option.some.inj ha
    exact ⟨List.forall_mem_singleton.mpr (hrefused e rfl), by simp⟩
  | loaded d =>
    obtain rfl := Option.some.inj ha
    exact ⟨by simp, by simp⟩
  | planned x =>
    simp only [advance] at ha
    split at ha <;> obtain rfl := Option.some.inj ha
    · exact ⟨List.forall_mem_singleton.mpr trivial, by simp⟩
    · exact ⟨by simp, by simp⟩
  | cleared x =>
    simp only [advance] at ha
    split at ha <;> obtain rfl := Option.some.inj ha <;>
      exact ⟨List.forall_mem_singleton.mpr trivial, by simp⟩
  | copied x =>
    simp only [advance] at ha
    split at ha
    · obtain rfl := Option.some.inj ha
      exact ⟨List.forall_mem_singleton.mpr trivial, by simp⟩
    · split at ha <;> obtain rfl := Option.some.inj ha
      · exact ⟨List.forall_mem_singleton.mpr trivial, by simp⟩
      · next e hwrite =>
        obtain ⟨content, hr, hfile⟩ := hcopied x rfl
        refine ⟨List.forall_mem_singleton.mpr fun d hd => ?_, by simp⟩
        obtain rfl : x.document = d := Except.ok.inj (hr.symm.trans hd)
        exact Document.write_eq_error hwrite hfile
  | ended => cases ha

theorem Work.limit_of_advance {planner : Planner} {dryRun : Bool} {u : FileUnit} {w : Work}
    {st : Stage} {a : Advance} (ha : w.advance planner dryRun u st = some a) :
    a.work.cache.limit = w.cache.limit := by
  cases st with
  | begun =>
    have hlimit := w.cache.limit_read w.tree u.file
    simp only [advance] at ha
    split at ha <;> next hread =>
      obtain rfl := Option.some.inj ha
      rwa [hread] at hlimit
  | refused | loaded =>
    obtain rfl := Option.some.inj ha
    rfl
  | planned | cleared =>
    simp only [advance] at ha
    split at ha <;> obtain rfl := Option.some.inj ha <;> rfl
  | copied =>
    simp only [advance] at ha
    split at ha
    · obtain rfl := Option.some.inj ha
      rfl
    · split at ha <;> obtain rfl := Option.some.inj ha <;> rfl
  | ended => cases ha

namespace History

variable {planner : Planner} {dryRun : Bool} {u : FileUnit} {events : List Event}

theorem eq_nil_of_begun (h : History planner dryRun u .begun events) : events = [] := by
  cases h
  rfl

theorem of_copied {x : Prepared} (h : History planner dryRun u (.copied x) events) :
    ∃ d place, x = u.prepared planner d ∧ events = [.read d, .copied place] := by
  cases h with
  | copied d place => exact ⟨d, place, rfl, rfl⟩

end History

namespace Crew

variable {planner : Planner} {dryRun : Bool} {vs : List Violation} {c c' : Crew} {w : Work}
  {u : FileUnit}

theorem filesApart_of_reaches (hreach : Reaches planner dryRun c c')
    (hnamed : c.work.backups.IsNamed) {tree : FileTree} {us : List FileUnit}
    (h : FilesApart tree c'.work.tree c'.work.backups.dir us) :
    FilesApart tree c.work.tree c.work.backups.dir us := by
  obtain ⟨j, -, hsince⟩ := Accounted.since hreach hnamed
  refine ⟨h.places, fun u hu d hd => ?_, fun u hu l hl hnone => ?_⟩
  · exact h.copies u hu d (hsince.backups.dir d hd)
  · exact hsince.retains.isNone (h.missing u hu l hl hnone)

/-- The journal says of files what is `allowed`, and what keeps a file from being opened, as far as
it has not been said yet, is the error that `r` gives for it. -/
structure Vouched (allowed : Path → Event → Prop) (r : Path → Except DocumentError Document)
    (c : Crew) : Prop where
  events : ∀ x ∈ c.journal, allowed x.1 x.2
  refused : ∀ t ∈ c.running, ∀ e, t.stage = .refused e → r t.unit.file = .error e

theorem Vouched.step {allowed : Path → Event → Prop} {r : Path → Except DocumentError Document}
    (h : Vouched allowed r c) (hstep : Step planner dryRun c c')
    (hadvance : ∀ u st a, ⟨u, st⟩ ∈ c.running → c.work.advance planner dryRun u st = some a →
      (∀ e ∈ a.events, allowed u.file e) ∧ ∀ e, a.stage = .refused e → r u.file = .error e) :
    Vouched allowed r c' := by
  cases hstep with
  | interrupt | skip => exact ⟨h.events, h.refused⟩
  | start =>
    refine ⟨h.events, fun t ht e he => ?_⟩
    rcases List.mem_append.mp ht with ht | ht
    · exact h.refused t ht e he
    · obtain rfl := List.mem_singleton.mp ht
      cases he
  | join _ hr =>
    refine ⟨h.events, fun t ht e he => h.refused t ?_ e he⟩
    rw [hr]
    exact List.mem_append.mpr ((List.mem_append.mp ht).imp_right (List.mem_cons_of_mem _))
  | @advance before after u st a hr _ ha =>
    obtain ⟨hevents, hrefused⟩ := hadvance u st a (by simp [hr]) ha
    refine ⟨fun x hx => ?_, fun t ht => ?_⟩
    · rcases List.mem_append.mp hx with hx | hx
      · exact h.events x hx
      · obtain ⟨e, he, rfl⟩ := List.mem_map.mp hx
        exact hevents e he
    · simp only [advanced, List.mem_append, List.mem_cons] at ht
      rcases ht with ht | rfl | ht
      · exact h.refused t (by simp [hr, ht])
      · exact hrefused
      · exact h.refused t (by simp [hr, ht])

theorem limit_of_step (h : Step planner dryRun c c') :
    c'.work.cache.limit = c.work.cache.limit := by
  cases h with
  | advance _ _ ha => exact Work.limit_of_advance ha
  | interrupt | start | skip | join => rfl

/-- What the journal says has come true for the files as they were before the run, and what is
still to be said will. -/
structure Truthful (w : Work) (c : Crew) : Prop where
  limit : c.work.cache.limit = w.cache.limit
  events : ∀ x ∈ c.journal, x.2.Reports (Document.read w.tree w.cache.limit x.1) x.1
  refused : ∀ t ∈ c.running, ∀ e, t.stage = .refused e →
    Document.read w.tree w.cache.limit t.unit.file = .error e

theorem fileAt?_kept {p : Path} (ha : Accounted w c.work c.journal)
    (hown : Journal.OnlyOwn w.tree.current c.journal p)
    (hunwritten : ∀ o encoding, .written o encoding ∉ c.journal.about p) :
    c.work.tree.fileAt? (locate w.tree.current p) = w.tree.fileAt? (locate w.tree.current p) := by
  refine (congrFun (congrArg Scene.files ha.scene) _).trans (Journal.files_replay _ ?_)
  intro x hx hplace
  obtain ⟨o, encoding, rfl⟩ := hown.written hx hplace
  exact hunwritten o encoding (Journal.mem_about.mpr hx)

theorem fileAt?_written (ha : Accounted w c.work c.journal)
    (hown : Journal.OnlyOwn w.tree.current c.journal u.file) {st : Stage}
    (hhistory : History planner dryRun u st (c.journal.about u.file)) {o : Edit.Outcome}
    {encoding : Encoding} (hw : .written o encoding ∈ c.journal.about u.file) :
    (encoding.encode? o.content).isSome ∧
      c.work.tree.fileAt? (locate w.tree.current u.file) = encoding.encode? o.content ∧
      (c.journal.about u.file).getLast? = some (.written o encoding) := by
  obtain ⟨before, after, hsplit⟩ := List.append_of_mem (Journal.mem_about.mp hw)
  have habout : c.journal.about u.file =
      Journal.about before u.file ++ .written o encoding :: Journal.about after u.file := by
    rw [hsplit, Journal.about_append]
    simp [Journal.about]
  have hnone : Journal.about after u.file = [] := by
    have hlast := hhistory.writes_last
    rw [habout] at hlast
    refine List.eq_nil_iff_forall_not_mem.mpr fun e he => ?_
    cases (List.pairwise_cons.mp (List.pairwise_append.mp hlast).2.1).1 e he
  have hkept : ∀ x ∈ after, x.2.place? w.tree.current x.1 ≠
      some (locate w.tree.current u.file) := by
    intro x hx hplace
    obtain ⟨o', encoding', rfl⟩ := hown.written (by simp [hsplit, hx]) hplace
    have hagain := Journal.mem_about.mpr hx
    simp [hnone] at hagain
  refine ⟨(hsplit ▸ ha.isTrue).of_split, ?_, by simp [habout, hnone]⟩
  refine (congrFun (congrArg Scene.files ha.scene) _).trans ?_
  rw [hsplit, Journal.replay_append]
  refine (Journal.files_replay _ hkept).trans ?_
  exact Function.update_self ..

section

variable (h : Staffed planner dryRun (Session.units vs) c)
  (ha : Accounted w c.work c.journal)
  (hapart : FilesApart w.tree c.work.tree c.work.backups.dir (Session.units vs))

include h ha hapart

theorem onlyOwn_of_apart (hu : u ∈ Session.units vs) :
    Journal.OnlyOwn w.tree.current c.journal u.file := by
  rintro ⟨p, e⟩ hx hplace
  cases e with
  | copied place =>
    cases place with
    | error e => cases hplace
    | ok target =>
      obtain ⟨dir, hdir, -, hcopy, -⟩ := copy_place ha (Journal.mem_copies.mpr hx)
      refine absurd ?_ (hapart.copies u hu dir hdir)
      rw [← Option.some.inj hplace, hcopy]
      exact List.prefix_append _ _
  | written o encoding =>
    obtain ⟨v, hv, rfl⟩ := h.known_unit _ hx
    exact ⟨hapart.places v hv u hu (Option.some.inj hplace), rfl⟩
  | _ => cases hplace

theorem find_kept (hu : u ∈ Session.units vs)
    (hunwritten : ∀ o encoding, .written o encoding ∉ c.journal.about u.file) :
    c.work.tree.find u.file = w.tree.find u.file :=
  ha.retains.find_eq (hapart.missing u hu)
    (fileAt?_kept ha (onlyOwn_of_apart h ha hapart hu) hunwritten)

end

theorem get?_of_about (h : Staffed planner dryRun (Session.units vs) c)
    (ha : Accounted w c.work c.journal) (hu : u ∈ Session.units vs)
    (hnone : c.journal.about u.file = []) : c.work.cache.get? u.file = w.cache.get? u.file := by
  refine (congrFun (congrArg Scene.documents ha.scene) _).trans (Journal.documents_replay _ ?_)
  intro x hx d hd hsame
  have hfile := spelled_once (h.known_unit x hx) ⟨u, hu, rfl⟩ (Path.same_iff.mp hsame)
  have hmem : x.2 ∈ c.journal.about u.file := Journal.mem_about.mpr (hfile ▸ hx)
  simp [hnone] at hmem

/-- What one step has to say comes true as well. -/
theorem Truthful.step (ht : Truthful w c) (h : Staffed planner dryRun (Session.units vs) c)
    (ha : Accounted w c.work c.journal)
    (hapart : FilesApart w.tree c.work.tree c.work.backups.dir (Session.units vs))
    (hfresh : ∀ p, w.cache.get? p = none) (hstep : Step planner dryRun c c') :
    Truthful w c' := by
  let read (p : Path) : Except DocumentError Document := Document.read w.tree w.cache.limit p
  have hvouched : Vouched (fun p e => e.Reports (read p) p) read c := ⟨ht.events, ht.refused⟩
  obtain ⟨hevents, hrefused⟩ := hvouched.step hstep fun u st a hrunning hadvance => by
    have htask := List.mem_append_right c.joined hrunning
    have hu : u ∈ Session.units vs := h.unit_mem htask
    have hhistory : History planner dryRun u st (c.journal.about u.file) := h.history _ htask
    refine Work.reports_of_advance hadvance ?_ (ht.refused _ hrunning) ?_
    · -- The unit begins: nobody has touched its file or read it.
      rintro rfl
      have hnone : c.journal.about u.file = [] := hhistory.eq_nil_of_begun
      have hunknown := (get?_of_about h ha hu hnone).trans (hfresh u.file)
      have hfind := find_kept h ha hapart hu (by simp [hnone])
      rw [Cache.read_of_unknown hunknown, ht.limit, Document.read_eq_ofFound, hfind,
        ← Document.read_eq_ofFound]
    · -- The unit has read its file, and nobody else has touched it.
      rintro x rfl
      obtain ⟨d, place, rfl, hevents⟩ := hhistory.of_copied
      have hfind := find_kept h ha hapart hu (by simp [hevents])
      have hread : Document.read w.tree w.cache.limit u.file = .ok d :=
        ht.events (u.file, .read d) (Journal.mem_about.mp (by simp [hevents]))
      obtain ⟨content, hfound⟩ :=
        Document.file_of_ofFound ((Document.read_eq_ofFound ..).symm.trans hread)
      exact ⟨content, hread, hfind.trans hfound⟩
  exact ⟨(limit_of_step hstep).trans ht.limit, hevents, hrefused⟩

theorem truthful_of_reaches {s : Session} {tree : FileTree} {q : Request}
    (hfresh : ∀ p, s.cache.get? p = none)
    (hreach : Reaches planner dryRun (s.crew tree q vs) c)
    (hapart : FilesApart tree c.work.tree c.work.backups.dir (Session.units vs)) :
    Truthful (s.work tree q vs) c := by
  induction hreach with
  | refl => exact ⟨rfl, by simp [Session.crew], by simp [Session.crew]⟩
  | tail hreach hstep ih =>
    obtain ⟨hstaffed, haccounted⟩ := Session.reaches_crew hreach
    have hearlier := filesApart_of_reaches (.single hstep) haccounted.named hapart
    exact (ih hearlier).step hstaffed haccounted hearlier hfresh hstep

end Crew

/-- What the path of a unit names after some events: the content that was written, if any was. -/
def Event.foundAfter (found : Except Cause Entry) (events : List Event) : Except Cause Entry :=
  match events.getLast? with
  | some (.written o encoding) =>
    match encoding.encode? o.content with
    | some content => .ok (.file content)
    | none => found
  | _ => found

theorem Share.ofEvents_singleton (p : Path) (e : Event) (found : Except Cause Entry) :
    Share.ofEvents p [e] found =
      ⟨e.processes, e.writes, e.applied, e.skipped, e.errors p, found⟩ := by
  simp [ofEvents]

theorem Share.ofEvents_read (p : Path) (d : Document) (events : List Event)
    (found : Except Cause Entry) :
    Share.ofEvents p (.read d :: events) found = Share.ofEvents p events found := rfl

theorem Share.ofEvents_copied (p : Path) (place : Except BackupError Path) (events : List Event)
    (found : Except Cause Entry) : Share.ofEvents p (.copied place :: events) found =
      { Share.ofEvents p events found with processed := true } := rfl

/-- The events of a unit that has ended make up the share that is due to it. -/
theorem History.share_eq {planner : Planner} {u : FileUnit} {k : Completion} {events : List Event}
    (h : History planner false u (.ended k) events) (hk : k ≠ .interrupted) {limit : ℕ}
    {found : Except Cause Entry}
    (hreports : ∀ e ∈ events, e.Reports (Document.ofFound limit u.file found) u.file)
    (hencodes : ∀ o encoding, .written o encoding ∈ events →
      (encoding.encode? o.content).isSome) :
    Share.ofEvents u.file events (Event.foundAfter found events) =
      u.share planner limit found := by
  cases h with
  | unread e =>
    have hread : Document.ofFound limit u.file found = .error e :=
      hreports (.unread e) (by simp)
    simp only [FileUnit.share, hread, Share.ofEvents_singleton]
    rfl
  | dropped => exact absurd rfl hk
  | left d hleft =>
    have hread : Document.ofFound limit u.file found = .ok d := hreports (.read d) (by simp)
    have hnone : (u.prepared planner d).fixes = [] := by simpa using hleft
    simp only [FileUnit.share, hread, Share.ofEvents_read, Share.ofEvents_singleton, hnone]
    rfl
  | unchanged d place hleft hsame =>
    have hread : Document.ofFound limit u.file found = .ok d := hreports (.read d) (by simp)
    have hfixes : ¬(u.prepared planner d).fixes.isEmpty := hleft
    simp only [FileUnit.share, hread, Share.ofEvents_read, Share.ofEvents_copied,
      Share.ofEvents_singleton, if_neg hfixes, if_pos hsame]
    rfl
  | written d place hleft hne =>
    have hread : Document.ofFound limit u.file found = .ok d := hreports (.read d) (by simp)
    have hfixes : ¬(u.prepared planner d).fixes.isEmpty := hleft
    obtain ⟨content, hcontent⟩ := Option.isSome_iff_exists.mp
      (hencodes (u.prepared planner d).outcome d.encoding (by simp))
    simp only [FileUnit.share, hread, Share.ofEvents_read, Share.ofEvents_copied,
      Share.ofEvents_singleton, if_neg hfixes, if_neg hne, hcontent, Event.foundAfter,
      List.getLast?_cons_cons, List.getLast?_singleton]
    rfl
  | unwritten d place e hleft hne =>
    have hread : Document.ofFound limit u.file found = .ok d := hreports (.read d) (by simp)
    have hfixes : ¬(u.prepared planner d).fixes.isEmpty := hleft
    obtain ⟨hnone, rfl⟩ := hreports (.unwritten (u.prepared planner d).outcome e) (by simp) d hread
    simp only [FileUnit.share, hread, Share.ofEvents_read, Share.ofEvents_copied,
      Share.ofEvents_singleton, if_neg hfixes, if_neg hne, hnone]
    rfl

namespace Crew

variable {planner : Planner} {dryRun : Bool} {vs : List Violation} {c : Crew} {u : FileUnit}

section

variable {w : Work} (h : Staffed planner dryRun (Session.units vs) c)
  (ha : Accounted w c.work c.journal) (ht : Truthful w c)
  (hapart : FilesApart w.tree c.work.tree c.work.backups.dir (Session.units vs))
  (hu : u ∈ Session.units vs) {st : Stage}
  (hhistory : History planner dryRun u st (c.journal.about u.file))

include h ha ht hapart hu hhistory

theorem find_written {o : Edit.Outcome} {encoding : Encoding}
    (hw : .written o encoding ∈ c.journal.about u.file) :
    ∃ content, encoding.encode? o.content = some content ∧
      c.work.tree.find u.file = .ok (.file content) ∧
      (c.journal.about u.file).getLast? = some (.written o encoding) := by
  obtain ⟨hencodes, hfile, hlast⟩ :=
    fileAt?_written ha (onlyOwn_of_apart h ha hapart hu) hhistory hw
  obtain ⟨content, hcontent⟩ := Option.isSome_iff_exists.mp hencodes
  have hresolve : c.work.tree.resolve u.file = .ok (locate w.tree.current u.file) := by
    obtain ⟨d, place, habout, -⟩ := hhistory.of_written hw
    have hread : Document.read w.tree w.cache.limit u.file = .ok d :=
      ht.events (u.file, .read d) (Journal.mem_about.mp (by simp [habout]))
    obtain ⟨content, hfound⟩ :=
      Document.file_of_ofFound ((Document.read_eq_ofFound ..).symm.trans hread)
    exact ha.tree.resolve (find_eq_file_iff.mp hfound).1
  refine ⟨content, hcontent, find_eq_file_iff.mpr ?_, hlast⟩
  rw [ha.tree.current]
  exact ⟨hresolve, hfile.trans hcontent⟩

/-- What the path of a unit names at any moment. -/
theorem find_eq_foundAfter : c.work.tree.find u.file =
    Event.foundAfter (w.tree.find u.file) (c.journal.about u.file) := by
  by_cases hw : ∃ o encoding, .written o encoding ∈ c.journal.about u.file
  · obtain ⟨o, encoding, hw⟩ := hw
    obtain ⟨content, hcontent, hfind, hlast⟩ := find_written h ha ht hapart hu hhistory hw
    rw [hfind, Event.foundAfter, hlast]
    simp only [hcontent]
  · push Not at hw
    rw [find_kept h ha hapart hu hw, Event.foundAfter]
    split
    · next o encoding hlast => exact absurd (List.mem_of_getLast? hlast) (hw o encoding)
    · rfl

end

/-- What all events make up is what those about each unit make up, one unit after the other. -/
theorem Staffed.flatMap_perm (h : Staffed planner dryRun (Session.units vs) c) {α : Type}
    (f : Path → Event → List α) :
    (c.journal.flatMap fun x => f x.1 x.2).Perm
      ((Session.units vs).flatMap fun u => (c.journal.about u.file).flatMap (f u.file)) := by
  have hperm := Journal.flatMap_about f (Session.nodup_files vs) (j := c.journal) fun x hx =>
    List.mem_map.mpr (h.known_unit x hx)
  rwa [List.flatMap_map] at hperm

theorem Staffed.files_perm (h : Staffed planner dryRun (Session.units vs) c) {set : PathSet}
    (hknown : ∀ p ∈ set.toList, ∃ e, (p, e) ∈ c.journal) {marks : FileUnit → Bool}
    (hmarks : ∀ u ∈ Session.units vs, marks u ↔ u.file ∈ set.toList) :
    set.toList.Perm (((Session.units vs).filter marks).map FileUnit.file) := by
  have hnodup := (Session.nodup_files vs).sublist
    ((List.filter_sublist (p := marks)).map FileUnit.file)
  refine (List.perm_ext_iff_of_nodup set.nodup hnodup).mpr fun p => ?_
  rw [List.mem_map]
  constructor
  · intro hp
    obtain ⟨e, he⟩ := hknown p hp
    obtain ⟨u, hu, rfl⟩ := h.known_unit _ he
    exact ⟨u, List.mem_filter.mpr ⟨hu, (hmarks u hu).mpr hp⟩, rfl⟩
  · rintro ⟨u, hu, rfl⟩
    obtain ⟨hu, hmark⟩ := List.mem_filter.mp hu
    exact (hmarks u hu).mp hmark

variable {s : Session} {tree : FileTree} {q : Request}

theorem modified_iff {p : Path} (h : Staffed planner dryRun (Session.units vs) c)
    (ha : Accounted (s.work tree q vs) c.work c.journal) :
    p ∈ c.work.report.modified.toList ↔ (c.journal.about p).any Event.writes := by
  rw [mem_modified h ha rfl, Journal.any_about]
  constructor
  · rintro ⟨o, encoding, hm⟩
    exact ⟨_, hm, rfl⟩
  · rintro ⟨e, hm, hw⟩
    cases e with
    | written o encoding => exact ⟨o, encoding, hm⟩
    | _ => cases hw

theorem Staffed.completed (h : Staffed planner dryRun (Session.units vs) c) (hover : c.isOver)
    (hcut : c.isCutShort = false) (hu : u ∈ Session.units vs) :
    ∃ k, k ≠ .interrupted ∧ History planner dryRun u (.ended k) (c.journal.about u.file) := by
  simp only [isCutShort, Bool.or_eq_false_iff, List.any_eq_false, Bool.not_eq_false',
    List.isEmpty_iff] at hcut
  obtain ⟨hjoined, hwaiting⟩ := hcut
  rcases h.waiting_or_joined hover hu with ⟨hw, -⟩ | ⟨t, ht, rfl, k, hk, hhistory⟩
  · simp [hwaiting] at hw
  · refine ⟨k, ?_, hhistory⟩
    rintro rfl
    exact hjoined t ht (by simp [hk, Stage.isInterrupted])

section

variable (hfresh : ∀ p, s.cache.get? p = none)
  (hreach : Reaches planner false (s.crew tree q vs) c) (hover : c.isOver)
  (hcut : c.isCutShort = false)
  (hapart : FilesApart tree c.work.tree c.work.backups.dir (Session.units vs))

include hfresh hreach hover hcut hapart

theorem taken_eq_share (hu : u ∈ Session.units vs) :
    Share.taken (s.conclude q c.work c.isCutShort) c.journal u.file =
      u.share planner s.cache.limit (tree.find u.file) := by
  obtain ⟨h, ha⟩ := Session.reaches_crew hreach
  have ht := truthful_of_reaches hfresh hreach hapart
  obtain ⟨k, hk, hhistory⟩ := h.completed hover hcut hu
  let out := s.conclude q c.work c.isCutShort
  have hprocessed : (Share.taken out c.journal u.file).processed =
      (c.journal.about u.file).any Event.processes := by
    rw [Bool.eq_iff_iff]
    exact decide_eq_true_iff.trans (processed_iff h ha)
  have hmodified : (Share.taken out c.journal u.file).modified =
      (c.journal.about u.file).any Event.writes := by
    rw [Bool.eq_iff_iff]
    exact decide_eq_true_iff.trans (modified_iff h ha)
  have hreports : ∀ e ∈ c.journal.about u.file,
      e.Reports (Document.ofFound s.cache.limit u.file (tree.find u.file)) u.file := by
    intro e he
    rw [← Document.read_eq_ofFound]
    exact ht.events (u.file, e) (Journal.mem_about.mp he)
  have hencodes : ∀ o encoding, .written o encoding ∈ c.journal.about u.file →
      (encoding.encode? o.content).isSome := by
    intro o encoding he
    obtain ⟨content, hcontent, -⟩ := find_written h ha ht hapart hu hhistory he
    simp [hcontent]
  calc Share.taken out c.journal u.file
    _ = { Share.ofEvents u.file (c.journal.about u.file) (c.work.tree.find u.file) with
          processed := (Share.taken out c.journal u.file).processed
          modified := (Share.taken out c.journal u.file).modified } := rfl
    _ = Share.ofEvents u.file (c.journal.about u.file) (c.work.tree.find u.file) := by
        rw [hprocessed, hmodified]
        rfl
    _ = Share.ofEvents u.file (c.journal.about u.file)
          (Event.foundAfter (tree.find u.file) (c.journal.about u.file)) := by
        rw [find_eq_foundAfter h ha ht hapart hu hhistory]
        rfl
    _ = u.share planner s.cache.limit (tree.find u.file) :=
        hhistory.share_eq hk hreports hencodes

theorem isSumOf_shares : (s.conclude q c.work c.isCutShort).1.IsSumOf []
    fun u => u.share planner s.cache.limit (tree.find u.file) := by
  obtain ⟨h, ha⟩ := Session.reaches_crew hreach
  let out := s.conclude q c.work c.isCutShort
  have htaken : ∀ u ∈ Session.units vs, u.share planner s.cache.limit (tree.find u.file) =
      Share.taken out c.journal u.file :=
    fun u hu => (taken_eq_share hfresh hreach hover hcut hapart hu).symm
  have hviolations : c.work.report.violations = vs := ha.violations
  have hlists : ∀ {α : Type} (f : Path → Event → List α) (g : Share → List α),
      (∀ p, (c.journal.about p).flatMap (f p) = g (Share.taken out c.journal p)) →
      (c.journal.flatMap fun x => f x.1 x.2).Perm ((Session.units vs).flatMap fun u =>
        g (u.share planner s.cache.limit (tree.find u.file))) := by
    intro α f g hg
    refine (h.flatMap_perm f).trans (List.Perm.flatMap_left _ fun u hu => ?_)
    rw [htaken u hu, hg]
  constructor <;> simp only [Session.conclude, hviolations]
  case processed =>
    refine h.files_perm (fun p hp => ?_) fun u hu => ?_
    · obtain ⟨e, he, -⟩ := (mem_processed h ha rfl).mp hp
      exact ⟨e, he⟩
    · rw [htaken u hu]
      exact decide_eq_true_iff
  case modified =>
    refine h.files_perm (fun p hp => ?_) fun u hu => ?_
    · obtain ⟨o, encoding, hm⟩ := (mem_modified h ha rfl).mp hp
      exact ⟨_, hm⟩
    · rw [htaken u hu]
      exact decide_eq_true_iff
  case applied =>
    rw [ha.report, Report.noteAll_applied]
    exact hlists (fun _ => Event.applied) Share.applied fun _ => rfl
  case skipped =>
    rw [ha.report, Report.noteAll_skipped]
    exact hlists (fun _ => Event.skipped) Share.skipped fun _ => rfl
  case errors =>
    rw [ha.report, Report.noteAll_errors, Journal.errors_eq_flatMap]
    exact hlists Event.errors Share.errors fun _ => rfl

end

end Crew

namespace Session

/-- What a run reports of a linter that gave nothing that can be used. -/
def lintErrors (s : Session) (payload : Except LintError Text) : List Text :=
  match s.violations payload with
  | .error e => [e]
  | .ok _ => []

/-- A run of a new session that is not dry and not interrupted, and whose files are apart. -/
structure IsRegular (registry : Registry) (settings : Settings) (tree : FileTree)
    (payload : Except LintError Text) (q : Request) (out : Report × Session × FileTree)
    (journal : Journal) : Prop where
  runs : (new registry settings).Runs tree payload q out journal
  notDry : q.dryRun = false
  uninterrupted : out.1.interrupted = false
  apart : FilesApart tree out.2.2 out.1.backupDir (units out.1.violations)

namespace IsRegular

variable {registry : Registry} {settings : Settings} {tree : FileTree}
  {payload : Except LintError Text} {q : Request} {out : Report × Session × FileTree}
  {journal : Journal} (h : IsRegular registry settings tree payload q out journal)

include h

theorem taken_eq {u : FileUnit} (hu : u ∈ units out.1.violations) :
    Share.taken out journal u.file =
      u.share (Planner.new registry q.selected) settings.maxFileBytes (tree.find u.file) := by
  obtain ⟨hruns, hdry, hcut, hapart⟩ := h
  cases hruns with
  | refused => cases hu
  | completed hv hreach hover =>
    rw [hdry] at hreach
    have hviolations := (reaches_crew hreach).2.violations
    simp only [conclude, hviolations] at hu hapart
    exact Crew.taken_eq_share (fun _ => rfl) hreach hover hcut hapart hu

theorem isSumOf : out.1.IsSumOf ((new registry settings).lintErrors payload) fun u =>
    u.share (Planner.new registry q.selected) settings.maxFileBytes (tree.find u.file) := by
  obtain ⟨hruns, hdry, hcut, hapart⟩ := h
  unfold lintErrors
  cases hruns with
  | refused hv =>
    rw [hv]
    exact ⟨.refl _, .refl _, .refl _, .refl _, .refl _⟩
  | completed hv hreach hover =>
    rw [hv]
    rw [hdry] at hreach
    have hviolations := (reaches_crew hreach).2.violations
    simp only [conclude, hviolations] at hapart
    exact Crew.isSumOf_shares (fun _ => rfl) hreach hover hcut hapart

theorem violations_eq : out.1.violations =
    match (new registry settings).violations payload with
    | .error _ => []
    | .ok vs => relevant q vs :=
  h.runs.violations_eq

end IsRegular

/-- What a run reports of a file, and what it makes of it, is settled by what the path of the file
names and by the violations of the file: it is the same in every other run of the rules over them,
whatever the other files are, however many workers there are and in whatever order they come to
their ends. The reports of two runs over the same files list the same. -/
theorem files_independent {registry : Registry} {settings : Settings} {tree : FileTree}
    {payload : Except LintError Text} {q : Request} {out : Report × Session × FileTree}
    {journal : Journal} (h : IsRegular registry settings tree payload q out journal) :
    let share (u : FileUnit) : Share :=
      u.share (Planner.new registry q.selected) settings.maxFileBytes (tree.find u.file)
    (∀ u ∈ units out.1.violations, Share.taken out journal u.file = share u) ∧
    out.1.IsSumOf ((new registry settings).lintErrors payload) share ∧
    ∀ {settings' : Settings} {tree' : FileTree} {payload' : Except LintError Text} {q' : Request}
      {out' : Report × Session × FileTree} {journal' : Journal},
      IsRegular registry settings' tree' payload' q' out' journal' →
      settings'.maxFileBytes = settings.maxFileBytes → q'.selected = q.selected →
      (∀ u ∈ units out.1.violations, u ∈ units out'.1.violations →
        tree'.find u.file = tree.find u.file →
        Share.taken out' journal' u.file = Share.taken out journal u.file) ∧
      ((new registry settings').violations payload' = (new registry settings).violations payload →
        (∀ u ∈ units out.1.violations, tree'.find u.file = tree.find u.file) →
        out.1.Alike out'.1) := by
  intro share
  refine ⟨fun u hu => h.taken_eq hu, h.isSumOf, ?_⟩
  intro settings' tree' payload' q' out' journal' h' hlimit hselected
  constructor
  · intro u hu hu' hfind
    rw [h.taken_eq hu, h'.taken_eq hu', hlimit, hselected, hfind]
  · intro hpayload hfind
    have hsum := h'.isSumOf
    rw [show (new registry settings').lintErrors payload' = (new registry settings).lintErrors
      payload by rw [lintErrors, lintErrors, hpayload]] at hsum
    refine h.isSumOf.alike hsum ?_ fun u hu => by rw [hlimit, hselected, hfind u hu]
    rw [h'.violations_eq, h.violations_eq, hpayload]
    simp only [relevant, hselected]

/-- A run whose units go on one after the other is regular if that can be seen from its end. -/
theorem isRegular_served {registry : Registry} {settings : Settings} {tree : FileTree}
    {payload : Except LintError Text} {q : Request} {n : ℕ} (dir : Path) :
    let s := new registry settings
    let c := s.served tree payload q n
    let out := s.conclude q c.work c.isCutShort
    (s.violations payload).isOk ∧ c.isOver ∧ q.dryRun = false ∧ out.1.interrupted = false ∧
      out.1.backupDir = some dir ∧
      (∀ u ∈ units out.1.violations, ∀ v ∈ units out.1.violations,
        locate tree.current u.file = locate tree.current v.file → u.file = v.file) ∧
      (∀ u ∈ units out.1.violations, ¬locate tree.current dir <+: locate tree.current u.file) ∧
      (∀ u ∈ units out.1.violations, ∀ l ∈ way tree.current u.file,
        tree.get? l = none → out.2.2.get? l = none) →
    IsRegular registry settings tree payload q out c.journal := by
  rintro s c out ⟨hok, hover, hdry, hcut, hdir, hplaces, hcopies, hmissing⟩
  exact ⟨runs_served hok hover, hdry, hcut, .of_dir hdir hplaces hcopies hmissing⟩

/-- The document in `docs` fares the same when a single worker is there and the other document is
missing. -/
theorem files_independent_of_missing :
    let registry := Registry.ofList [Rule.entityReference]
    let settings : Settings := { workingDir := "docs" }
    let settings' : Settings := { settings with maxWorkers := 1 }
    let tree := FileTree.twoDocuments "b.adoc"
    let tree' := tree.erase ["w", "b.adoc"]
    let payload := .ok (Payload.twoAlerts "b.adoc")
    let c := (new registry settings).served tree payload .plain 40
    let out := (new registry settings).conclude .plain c.work c.isCutShort
    let c' := (new registry settings').served tree' payload .plain 40
    let out' := (new registry settings').conclude .plain c'.work c'.isCutShort
    out.1.modified.toList = [("b.adoc" : Path), ("docs/a.adoc" : Path)] ∧
      out'.1.errors.length = 1 ∧
      Share.taken out' c'.journal "docs/a.adoc" = Share.taken out c.journal "docs/a.adoc" := by
  intro registry settings settings' tree tree' payload c out c' out'
  have hregular : IsRegular registry settings tree payload .plain out c.journal := by
    refine isRegular_served "/w/tmp/docfix-backup-aaaaaa" ?_
    decide +kernel
  have hregular' : IsRegular registry settings' tree' payload .plain out' c'.journal := by
    refine isRegular_served "/w/tmp/docfix-backup-aaaaaa" ?_
    decide +kernel
  obtain ⟨-, -, hsame⟩ := files_independent hregular
  obtain ⟨hshares, -⟩ := hsame hregular' rfl rfl
  have hviolations : out'.1.violations = out.1.violations :=
    hregular'.violations_eq.trans hregular.violations_eq.symm
  obtain ⟨hunit, hmodified, herrors⟩ : (∃ u ∈ units out.1.violations, u.file = "docs/a.adoc") ∧
      out.1.modified.toList = [("b.adoc" : Path), ("docs/a.adoc" : Path)] ∧
      out'.1.errors.length = 1 := by
    decide +kernel
  obtain ⟨u, hu, hfile⟩ := hunit
  have hfind : tree'.find u.file = tree.find u.file := by
    rw [hfile]
    rfl
  exact ⟨hmodified, herrors, hfile ▸ hshares u hu (hviolations ▸ hu) hfind⟩

end Session

end Errata
