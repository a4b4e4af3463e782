import Errata.Proofs.File.Document
import Errata.Proofs.FirstMet
import Mathlib.Data.Finset.Card
import Mathlib.Data.List.Induction

/-!
# Reading through a cache

Whatever others do to the files in between, a cache that is read from again and again knows the
documents that it has given out, and no others. So the first document that it gives for a path is
the one that the file holds then, and also the last one.
-/
namespace Errata.Cache

def keys (c : Cache) : List (List Path.Component) := c.entries.map (·.1.components)

theorem length_keys (c : Cache) : c.keys.length = c.size := List.length_map _

theorem mem_keys_iff {c : Cache} {p : Path} : p.components ∈ c.keys ↔ ∃ d, c.get? p = some d := by
  simp only [keys, List.mem_map, get?, Option.map_eq_some_iff]
  constructor
  · rintro ⟨e, he, hsame⟩
    have hfind : (c.entries.find? (·.1.same p)).isSome :=
      List.find?_isSome.mpr ⟨e, he, Path.same_iff.mpr hsame⟩
    obtain ⟨e', he'⟩ := Option.isSome_iff_exists.mp hfind
    exact ⟨_, e', he', rfl⟩
  · rintro ⟨d, e, he, -⟩
    have hsame : e.1.same p := by simpa using List.find?_some he
    exact ⟨e, List.mem_of_find?_eq_some he, Path.same_iff.mp hsame⟩

theorem nodup_keys_read {c : Cache} (h : c.keys.Nodup) (t : FileTree) (p : Path) :
    (c.read t p).2.keys.Nodup := by
  rw [read_eq]
  split
  · exact h
  · next hnone =>
    split
    · next d _ =>
      have hnew : p.components ∉ c.keys := by simp [mem_keys_iff, hnone]
      exact List.nodup_cons.mpr ⟨hnew, h⟩
    · exact h

inductive Step where
  | read (path : Path)
  | change (files : FileTree)

/-- A read from a cache, with the files as they were. -/
structure Reading where
  before : Cache
  files : FileTree
  path : Path

namespace Reading

def answer (r : Reading) : Except DocumentError Document := (r.before.read r.files r.path).1

def after (r : Reading) : Cache := (r.before.read r.files r.path).2

theorem read_eq (r : Reading) : r.before.read r.files r.path = (r.answer, r.after) := rfl

theorem isOk_answer_iff {r : Reading} : r.answer.isOk ↔ ∃ d, r.answer = .ok d := by
  cases r.answer <;> simp [Except.isOk, Except.toBool]

/-- The read gave some document for the path, in whatever spelling. -/
def Gives (r : Reading) (p : Path) (d : Document) : Prop := r.path.same p ∧ r.answer = .ok d

end Reading

/-- A cache in use, with the files as they are and the reads so far. -/
structure Usage where
  cache : Cache
  files : FileTree
  readings : List Reading

namespace Usage

def step (u : Usage) : Step → Usage
  | .read p =>
    let r : Reading := ⟨u.cache, u.files, p⟩
    ⟨r.after, u.files, u.readings ++ [r]⟩
  | .change files => { u with files := files }

def after (limit : ℕ) (files : FileTree) (steps : List Step) : Usage :=
  steps.foldl step ⟨.new limit, files, []⟩

theorem after_concat (limit : ℕ) (files : FileTree) (steps : List Step) (s : Step) :
    after limit files (steps ++ [s]) = (after limit files steps).step s := by
  simp [after]

/-- What a cache is like between two reads: it has an entry for each path that a document was given
for, with that document. -/
structure Consistent (limit : ℕ) (u : Usage) : Prop where
  limited : u.cache.limit = limit
  distinct : u.cache.keys.Nodup
  known : ∀ p d, u.cache.get? p = some d ↔ ∃ r ∈ u.readings, r.Gives p d

theorem Consistent.read {limit : ℕ} {u : Usage} (h : u.Consistent limit) (p : Path) :
    (u.step (.read p)).Consistent limit where
  limited := (limit_read _ _ _).trans h.limited
  distinct := nodup_keys_read h.distinct _ _
  known q d := by
    let r : Reading := ⟨u.cache, u.files, p⟩
    have hgives : (∃ r' ∈ u.readings ++ [r], r'.Gives q d) ↔
        u.cache.get? q = some d ∨ r.Gives q d := by
      simp [h.known, or_and_right, exists_or]
    show r.after.get? q = some d ↔ ∃ r' ∈ u.readings ++ [r], r'.Gives q d
    rw [hgives]
    cases hanswer : r.answer with
    | error e =>
      have hafter : r.after = u.cache := read_eq_error (hanswer ▸ r.read_eq)
      simp [hafter, Reading.Gives, hanswer]
    | ok d' =>
      have hread : u.cache.read u.files p = (.ok d', r.after) := hanswer ▸ r.read_eq
      simp only [get?_read hread, Reading.Gives, hanswer, Except.ok.injEq]
      by_cases hsame : p.same q
      -- what is known of the path already is what the read gave
      · have hq : u.cache.get? q = u.cache.get? p :=
          u.cache.get?_congr (Path.same_iff.mp hsame).symm
        rcases source_of_read hread with hp | ⟨hp, -⟩ <;> simp [hsame, hq, hp, r]
      · simp [hsame, r]

theorem consistent_after (limit : ℕ) (files : FileTree) (steps : List Step) :
    (after limit files steps).Consistent limit := by
  induction steps using List.reverseRecOn with
  | nil => exact ⟨rfl, List.nodup_nil, by simp [after, new, get?]⟩
  | append_singleton steps s ih =>
    rw [after_concat]
    cases s with
    | read p => exact ih.read p
    | change files => exact ⟨ih.limited, ih.distinct, ih.known⟩

theorem exists_after_eq {limit : ℕ} {files : FileTree} {steps : List Step}
    {earlier later : List Reading} {r : Reading}
    (h : (after limit files steps).readings = earlier ++ r :: later) :
    ∃ before, after limit files before = ⟨r.before, r.files, earlier⟩ := by
  induction steps using List.reverseRecOn generalizing later with
  | nil => simp [after] at h
  | append_singleton steps s ih =>
    rw [after_concat] at h
    cases s with
    | change files => exact ih h
    | read p =>
      rcases concat_eq_split_iff.mp h with ⟨-, rfl, rfl⟩ | ⟨between, -, hsplit⟩
      · exact ⟨steps, rfl⟩
      · exact ih hsplit

theorem Consistent.mem_keys_iff {limit : ℕ} {u : Usage} (h : u.Consistent limit)
    {k : List Path.Component} :
    k ∈ u.cache.keys ↔ ∃ r ∈ u.readings, r.answer.isOk ∧ r.path.components = k := by
  constructor
  · intro hk
    obtain ⟨e, -, rfl⟩ := List.mem_map.mp hk
    obtain ⟨d, hd⟩ := Cache.mem_keys_iff.mp hk
    obtain ⟨r, hr, hsame, hanswer⟩ := (h.known _ _).mp hd
    exact ⟨r, hr, Reading.isOk_answer_iff.mpr ⟨d, hanswer⟩, Path.same_iff.mp hsame⟩
  · rintro ⟨r, hr, hok, rfl⟩
    obtain ⟨d, hanswer⟩ := Reading.isOk_answer_iff.mp hok
    exact Cache.mem_keys_iff.mpr ⟨d, (h.known _ _).mpr ⟨r, hr, Path.same_iff.mpr rfl, hanswer⟩⟩

theorem Consistent.size_eq {limit : ℕ} {u : Usage} (h : u.Consistent limit) :
    u.cache.size =
      ((u.readings.filter (·.answer.isOk)).map (·.path.components)).toFinset.card := by
  rw [← length_keys, ← List.toFinset_card_of_nodup h.distinct]
  congr 1
  ext k
  simp only [List.mem_toFinset, h.mem_keys_iff, List.mem_map, List.mem_filter, and_assoc]

end Usage

/-- The documents that a cache gives are snapshots. A path that no read has given a document for is
looked up among the files as they are then: their bytes are decoded unless they are over the limit.
From then on the path has this document, whatever becomes of the files. A read that fails changes
nothing, and there are as many entries as paths that were read successfully. -/
theorem reads_are_snapshots (limit : ℕ) (files : FileTree) (steps : List Step) :
    let u := Usage.after limit files steps
    (∀ earlier r later, u.readings = earlier ++ r :: later →
      ((∀ q ∈ earlier, q.path.same r.path → ¬ q.answer.isOk) →
        r.answer = Document.read r.files limit r.path ∧
        ∀ d, r.answer = .ok d ↔ ∃ bytes, r.files.read r.path = .ok bytes ∧ bytes.size ≤ limit ∧
          Encoding.decode? bytes = some (d.text, d.encoding)) ∧
      (∀ q ∈ earlier, q.path.same r.path → ∀ d, q.answer = .ok d → r.answer = .ok d) ∧
      ∀ e, r.answer = .error e → r.after = r.before) ∧
    u.cache.size =
      ((u.readings.filter (·.answer.isOk)).map (·.path.components)).toFinset.card := by
  intro u
  refine ⟨fun earlier r later hsplit => ?_, (Usage.consistent_after limit files steps).size_eq⟩
  obtain ⟨before, hbefore⟩ := Usage.exists_after_eq hsplit
  have hcache : Usage.Consistent limit ⟨r.before, r.files, earlier⟩ :=
    hbefore ▸ Usage.consistent_after limit files before
  refine ⟨?_, ?_, fun e he => read_eq_error (he ▸ r.read_eq)⟩
  · intro hfirst
    have hunknown : r.before.get? r.path = none := by
      rw [Option.eq_none_iff_forall_ne_some]
      intro d hd
      obtain ⟨q, hq, hsame, hanswer⟩ := (hcache.known _ _).mp hd
      exact hfirst q hq hsame (Reading.isOk_answer_iff.mpr ⟨d, hanswer⟩)
    have hanswer : r.answer = Document.read r.files limit r.path :=
      hcache.limited ▸ read_of_unknown hunknown r.files
    refine ⟨hanswer, fun d => ?_⟩
    rw [hanswer, Document.read_eq_ok_iff]
  · intro q hq hsame d hd
    have hknown : r.before.get? r.path = some d := (hcache.known _ _).mpr ⟨q, hq, hsame, hd⟩
    exact congrArg Prod.fst (read_of_known hknown r.files)

/-- A file that is missing, then written, and then too large gives its one text from the second
read on, under another spelling as well. -/
theorem reads_are_snapshots_rewritten :
    let missing := FileTree.new ["w"] "/tmp"
    let written := missing.put ["w", "a.adoc"] (.file ⟨#[0x41]⟩)
    let grown := missing.put ["w", "a.adoc"] (.file ⟨#[0x42, 0x42]⟩)
    let u := Usage.after 1 missing [.read "/w/a.adoc", .change written, .read "/w/a.adoc",
      .change grown, .read "/w/.//a.adoc"]
    ∃ first second third, u.readings = [first, second, third] ∧
      first.after = first.before ∧ second.answer = .ok ⟨"A", .utf8⟩ ∧
      third.answer = .ok ⟨"A", .utf8⟩ ∧ u.cache.size = 1 := by
  intro missing written grown u
  obtain ⟨hreads, hsize⟩ := reads_are_snapshots 1 missing [.read "/w/a.adoc", .change written,
    .read "/w/a.adoc", .change grown, .read "/w/.//a.adoc"]
  let first : Reading := ⟨.new 1, missing, "/w/a.adoc"⟩
  let second : Reading := ⟨first.after, written, "/w/a.adoc"⟩
  let third : Reading := ⟨second.after, grown, "/w/.//a.adoc"⟩
  obtain ⟨-, -, hfailed⟩ := hreads [] first [second, third] rfl
  obtain ⟨hlooked, -, -⟩ := hreads [first] second [third] rfl
  obtain ⟨-, hkept, -⟩ := hreads [first, second] third [] rfl
  have hfirst : first.answer = .error (.ofCause .query "/w/a.adoc" .notFound) := by decide
  have hsecond : second.answer = .ok ⟨"A", .utf8⟩ := by
    obtain ⟨-, hdocument⟩ := hlooked (by decide)
    exact (hdocument _).mpr ⟨⟨#[0x41]⟩, rfl, by decide, by decide⟩
  have hthird := hkept second (by simp) (by decide) _ hsecond
  refine ⟨first, second, third, rfl, hfailed _ hfirst, hsecond, hthird, ?_⟩
  rw [hsize]
  decide

end Errata.Cache
