import Errata.File.Tree
import Mathlib.Data.List.Basic
import Mathlib.Logic.Function.Basic

/-!
# Places and operations of a file tree

A tree looks at every name on the way of a path, but where the path leads is settled by its text
and the current directory alone: `FileTree.locate` reads it off. Operations never take a directory
away, so a path that could be followed once can always be followed; what they do to the files is a
change at one place, or none.
-/
namespace Errata.FileTree

/-- One piece of a path further, whatever is there. -/
def walk (l : Location) (piece : Text) : Location :=
  if piece = [] ∨ piece = ['.'] then l
  else if piece = ['.', '.'] then l.dropLast
  else l ++ [piece]

/-- The place that a path leads to from a directory, whatever is there. -/
def locate (current : Location) (p : Path) : Location :=
  (p.text.splitOn '/').foldl walk (if p.isAbsolute then [] else current)

def fileAt? (t : FileTree) (l : Location) : Option ByteArray :=
  match t.get? l with
  | some (.file content) => some content
  | _ => none

/-- Every directory of the first tree is one of the second. -/
structure Extends (t t' : FileTree) : Prop where
  current : t'.current = t.current
  directory : ∀ l, t.get? l = some .directory → t'.get? l = some .directory

/-- The second tree has more directories than the first one, and the same files. -/
structure Grows (t t' : FileTree) : Prop extends Extends t t' where
  files : t'.fileAt? = t.fileAt?

theorem Extends.refl (t : FileTree) : Extends t t := ⟨rfl, fun _ h => h⟩

theorem Extends.trans {a b c : FileTree} (hab : Extends a b) (hbc : Extends b c) : Extends a c :=
  ⟨hbc.current.trans hab.current, fun l h => hbc.directory l (hab.directory l h)⟩

theorem Grows.refl (t : FileTree) : Grows t t := ⟨.refl t, rfl⟩

theorem Grows.trans {a b c : FileTree} (hab : Grows a b) (hbc : Grows b c) : Grows a c :=
  ⟨hab.toExtends.trans hbc.toExtends, hbc.files.trans hab.files⟩

theorem fileAt?_eq_some_iff {t : FileTree} {l : Location} {content : ByteArray} :
    t.fileAt? l = some content ↔ t.get? l = some (.file content) := by
  unfold fileAt?
  split <;> simp_all

theorem mem_entries_of_fileAt? {t : FileTree} {l : Location} {content : ByteArray}
    (h : t.fileAt? l = some content) : (l, .file content) ∈ t.entries := by
  rw [fileAt?_eq_some_iff, get?] at h
  split at h
  · cases Option.some.inj h
  · obtain ⟨⟨m, e⟩, hfind, rfl⟩ := Option.map_eq_some_iff.mp h
    obtain rfl : m = l := by simpa using List.find?_some hfind
    exact List.mem_of_find?_eq_some hfind

theorem bind_eq_ok_iff {ε α β : Type} {x : Except ε α} {f : α → Except ε β} {b : β} :
    (x >>= f) = .ok b ↔ ∃ a, x = .ok a ∧ f a = .ok b := by
  cases x <;> simp [bind, Except.bind]

theorem eq_walk_of_follow {t : FileTree} {l m : Location} {piece : Text}
    (h : t.follow l piece = .ok m) : m = walk l piece := by
  unfold follow at h
  unfold walk
  grind

theorem Extends.follow {t t' : FileTree} (h : Extends t t') {l m : Location} {piece : Text}
    (hf : t.follow l piece = .ok m) : t'.follow l piece = .ok m := by
  unfold FileTree.follow at hf ⊢
  split at hf
  · simp at hf
  · simp at hf
  · next hl => rwa [h.directory l hl]

theorem eq_foldl_of_foldlM {t : FileTree} {pieces : List Text} {l m : Location}
    (h : pieces.foldlM t.follow l = .ok m) : m = pieces.foldl walk l := by
  induction pieces generalizing l with
  | nil => exact (Except.ok.inj h).symm
  | cons piece pieces ih =>
    rw [List.foldlM_cons] at h
    obtain ⟨k, hf, hk⟩ := bind_eq_ok_iff.mp h
    rw [List.foldl_cons, ← eq_walk_of_follow hf]
    exact ih hk

theorem Extends.foldlM {t t' : FileTree} (h : Extends t t') {pieces : List Text}
    {l m : Location} (hf : pieces.foldlM t.follow l = .ok m) :
    pieces.foldlM t'.follow l = .ok m := by
  induction pieces generalizing l with
  | nil => exact hf
  | cons piece pieces ih =>
    rw [List.foldlM_cons] at hf ⊢
    obtain ⟨k, hk, hm⟩ := bind_eq_ok_iff.mp hf
    exact bind_eq_ok_iff.mpr ⟨k, h.follow hk, ih hm⟩

theorem pieces_eq_ok {p : Path} {pieces : List Text} (h : FileTree.pieces p = .ok pieces) :
    pieces = p.text.splitOn '/' := by
  unfold FileTree.pieces at h
  grind

theorem eq_locate_of_resolve {t : FileTree} {p : Path} {l : Location}
    (h : t.resolve p = .ok l) : l = locate t.current p := by
  obtain ⟨pieces, hp, hl⟩ := bind_eq_ok_iff.mp h
  rw [eq_foldl_of_foldlM hl, pieces_eq_ok hp]
  rfl

theorem Extends.resolve {t t' : FileTree} (h : Extends t t') {p : Path} {l : Location}
    (hr : t.resolve p = .ok l) : t'.resolve p = .ok l := by
  obtain ⟨pieces, hp, hl⟩ := bind_eq_ok_iff.mp hr
  have hb : t'.base p = t.base p := by simp [base, h.current]
  exact bind_eq_ok_iff.mpr ⟨pieces, hp, by rw [hb]; exact h.foldlM hl⟩

def walkComponent (l : Location) : Path.Component → Location
  | .root => []
  | .current => l
  | .parent => l.dropLast
  | .name n => l ++ [n]

theorem walk_eq (l : Location) (piece : Text) :
    walk l piece = (Path.ofPiece piece).toList.foldl walkComponent l := by
  unfold walk Path.ofPiece
  grind [walkComponent]

theorem foldl_walk_eq (pieces : List Text) (l : Location) :
    pieces.foldl walk l = (pieces.filterMap Path.ofPiece).foldl walkComponent l := by
  induction pieces generalizing l with
  | nil => rfl
  | cons piece pieces ih =>
    rw [List.foldl_cons, ih, walk_eq]
    cases ho : Path.ofPiece piece with
    | none => rw [List.filterMap_cons_none ho, Option.toList_none, List.foldl_nil]
    | some c => rw [List.filterMap_cons_some ho, Option.toList_some, List.foldl_cons,
        List.foldl_cons, List.foldl_nil]

/-- Where a path leads depends on its components only. -/
theorem locate_eq_foldl (current : Location) (p : Path) :
    locate current p = p.components.foldl walkComponent current := by
  unfold locate Path.components
  cases hs : p.text.splitOn '/' with
  | nil => exact absurd hs (List.splitOn_ne_nil _ _)
  | cons first rest =>
    rw [List.foldl_append, List.foldl_cons, foldl_walk_eq]
    congr 1
    by_cases habs : p.isAbsolute
    · obtain ⟨r, hr⟩ : ∃ r, p.text = '/' :: r := by
        cases ht : p.text with
        | nil => simp [Path.isAbsolute, ht] at habs
        | cons c r => exact ⟨r, by simpa [Path.isAbsolute, ht] using habs⟩
      obtain rfl : first = [] := by
        rw [hr, List.splitOn_cons_eq_if_modifyHead] at hs
        simpa using (List.cons.inj hs).1.symm
      simp [habs, walk, walkComponent]
    · by_cases hdot : first = ['.']
      · simp [habs, hdot, walk, walkComponent]
      · simp [habs, hdot, walk_eq]

/-- The places that a tree looks at for a path, the one that it leads to among them. -/
def way (current : Location) (p : Path) : List Location :=
  (p.text.splitOn '/').scanl walk (if p.isAbsolute then [] else current)

def kind? (t : FileTree) (l : Location) : Option Bool :=
  match t.get? l with
  | none => none
  | some .directory => some true
  | some (.file _) => some false

/-- Nothing of the first tree is missing in the second or of another kind there. -/
structure Retains (t t' : FileTree) : Prop extends Extends t t' where
  file : ∀ l, (t.fileAt? l).isSome → (t'.fileAt? l).isSome

theorem mem_way_locate (current : Location) (p : Path) : locate current p ∈ way current p := by
  have hne : way current p ≠ [] := List.scanl_ne_nil
  have hlast : (way current p).getLast hne = locate current p := List.getLast_scanl _
  exact hlast ▸ List.getLast_mem hne

theorem follow_congr {t t' : FileTree} {l : Location} (h : t'.kind? l = t.kind? l)
    (piece : Text) : t'.follow l piece = t.follow l piece := by
  unfold kind? at h
  unfold follow
  split at h <;> split at h <;> simp_all

theorem foldlM_congr {t t' : FileTree} {pieces : List Text} {l : Location}
    (h : ∀ m ∈ pieces.scanl walk l, t'.kind? m = t.kind? m) :
    pieces.foldlM t'.follow l = pieces.foldlM t.follow l := by
  induction pieces generalizing l with
  | nil => rfl
  | cons piece pieces ih =>
    rw [List.scanl_cons, List.forall_mem_cons] at h
    obtain ⟨hl, hrest⟩ := h
    rw [List.foldlM_cons, List.foldlM_cons, follow_congr hl]
    cases hf : t.follow l piece with
    | error c => rfl
    | ok m =>
      obtain rfl := eq_walk_of_follow hf
      exact ih hrest

theorem resolve_congr {t t' : FileTree} {p : Path} (hcurrent : t'.current = t.current)
    (h : ∀ l ∈ way t.current p, t'.kind? l = t.kind? l) : t'.resolve p = t.resolve p := by
  have hbase : t'.base p = t.base p := by simp [base, hcurrent]
  unfold resolve
  rw [hbase]
  cases hp : FileTree.pieces p with
  | error c => rfl
  | ok pieces =>
    obtain rfl := pieces_eq_ok hp
    exact foldlM_congr h

theorem Retains.isNone {t t' : FileTree} (h : Retains t t') {l : Location}
    (hl : t'.get? l = none) : t.get? l = none := by
  cases ht : t.get? l with
  | none => rfl
  | some e =>
    cases e with
    | directory => simp [h.directory l ht] at hl
    | file content =>
      have := h.file l (by simp [fileAt?_eq_some_iff.mpr ht])
      simp [fileAt?, hl] at this

theorem Retains.kind?_eq {t t' : FileTree} (h : Retains t t') {l : Location}
    (hl : t.get? l = none → t'.get? l = none) : t'.kind? l = t.kind? l := by
  cases ht : t.get? l with
  | none => simp [kind?, ht, hl ht]
  | some e =>
    cases e with
    | directory => simp [kind?, ht, h.directory l ht]
    | file content =>
      obtain ⟨content', hf⟩ := Option.isSome_iff_exists.mp
        (h.file l (by simp [fileAt?_eq_some_iff.mpr ht]))
      simp [kind?, ht, fileAt?_eq_some_iff.mp hf]

theorem get?_congr {t t' : FileTree} {l : Location} (hk : t'.kind? l = t.kind? l)
    (hf : t'.fileAt? l = t.fileAt? l) : t'.get? l = t.get? l := by
  unfold kind? at hk
  unfold fileAt? at hf
  split at hk <;> split at hk <;> simp_all

/-- What a path names stays the same while its file has the same content and nothing comes up on
its way. -/
theorem Retains.find_eq {t t' : FileTree} (h : Retains t t') {p : Path}
    (hway : ∀ l ∈ way t.current p, t.get? l = none → t'.get? l = none)
    (hfile : t'.fileAt? (locate t.current p) = t.fileAt? (locate t.current p)) :
    t'.find p = t.find p := by
  have hkind : ∀ l ∈ way t.current p, t'.kind? l = t.kind? l :=
    fun l hl => h.kind?_eq (hway l hl)
  have hresolve := resolve_congr h.current hkind
  unfold find
  rw [hresolve]
  cases hr : t.resolve p with
  | error c => rfl
  | ok l =>
    obtain rfl := eq_locate_of_resolve hr
    have hget := get?_congr (hkind _ (mem_way_locate _ p)) hfile
    simp only [bind, Except.bind, hget]

theorem find_eq_file_iff {t : FileTree} {p : Path} {content : ByteArray} :
    t.find p = .ok (.file content) ↔
      t.resolve p = .ok (locate t.current p) ∧
      t.fileAt? (locate t.current p) = some content := by
  unfold find
  cases hr : t.resolve p with
  | error c => simp [bind, Except.bind]
  | ok l =>
    obtain rfl := eq_locate_of_resolve hr
    rw [fileAt?_eq_some_iff]
    cases hg : t.get? (locate t.current p) <;> simp [hg, bind, Except.bind]

theorem read_eq_ok_iff {t : FileTree} {p : Path} {content : ByteArray} :
    t.read p = .ok content ↔
      t.resolve p = .ok (locate t.current p) ∧
      t.fileAt? (locate t.current p) = some content := by
  rw [← find_eq_file_iff, read]
  cases hf : t.find p with
  | error c => simp [bind, Except.bind]
  | ok e => cases e <;> simp [bind, Except.bind]

theorem fileAt?_of_read {t : FileTree} {p : Path} {content : ByteArray}
    (h : t.read p = .ok content) : t.fileAt? (locate t.current p) = some content :=
  (read_eq_ok_iff.mp h).2

theorem fileAt?_put_file (t : FileTree) {l : Location} (content : ByteArray) (h : l ≠ []) :
    (t.put l (.file content)).fileAt? = Function.update t.fileAt? l (some content) := by
  funext m
  by_cases hm : m = l
  · subst hm
    simp [fileAt?, get?_put_self t m _ h]
  · simp [fileAt?, get?_put_of_ne t _ (Ne.symm hm), Function.update_of_ne hm]

theorem extends_put {t : FileTree} {l : Location} (e : Entry) (h : t.get? l ≠ some .directory) :
    Extends t (t.put l e) where
  current := rfl
  directory m hm := by
    have hne : l ≠ m := by
      rintro rfl
      exact h hm
    rwa [get?_put_of_ne t e hne]

theorem write_eq_ok {t t' : FileTree} {p : Path} {content : ByteArray}
    (h : t.write p content = .ok t') :
    t.resolve p = .ok (locate t.current p) ∧ Extends t t' ∧
    t'.fileAt? = Function.update t.fileAt? (locate t.current p) (some content) := by
  obtain ⟨l, hr, hw⟩ := bind_eq_ok_iff.mp h
  obtain rfl := eq_locate_of_resolve hr
  split at hw
  · simp at hw
  · next hd =>
    have hroot : locate t.current p ≠ [] := by
      intro hnil
      rw [hnil] at hd
      exact hd rfl
    obtain rfl := Except.ok.inj hw
    exact ⟨hr, extends_put _ hd, fileAt?_put_file t content hroot⟩

theorem write_of_find {t : FileTree} {p : Path} {content : ByteArray}
    (h : t.find p = .ok (.file content)) (content' : ByteArray) :
    t.write p content' = .ok (t.put (locate t.current p) (.file content')) := by
  obtain ⟨hresolve, hcontent⟩ := find_eq_file_iff.mp h
  have hget := fileAt?_eq_some_iff.mp hcontent
  rw [write, hresolve]
  simp only [bind, Except.bind, hget]

theorem get?_put_same {t : FileTree} {l : Location} {content : ByteArray}
    (h : t.get? l = some (.file content)) : (t.put l (.file content)).get? = t.get? := by
  have hroot : l ≠ [] := by
    rintro rfl
    simp [get?] at h
  funext m
  by_cases hm : l = m
  · subst hm
    rw [get?_put_self t l _ hroot, h]
  · exact get?_put_of_ne t _ hm

theorem copy_eq_ok {t t' : FileTree} {source target : Path}
    (h : t.copy source target = .ok t') :
    ∃ content, t.read source = .ok content ∧ t.write target content = .ok t' :=
  bind_eq_ok_iff.mp h

theorem grows_put_directory {t : FileTree} {l : Location} (h : t.get? l = none) :
    Grows t (t.put l .directory) where
  toExtends := extends_put _ (by simp [h])
  files := by
    funext m
    have hroot : l ≠ [] := by
      rintro rfl
      simp [get?] at h
    by_cases hm : m = l
    · subst hm
      simp [fileAt?, get?_put_self t m _ hroot, h]
    · simp [fileAt?, get?_put_of_ne t _ (Ne.symm hm)]

theorem createDirectory_eq_ok {t t' : FileTree} {p : Path} (h : t.createDirectory p = .ok t') :
    Grows t t' := by
  obtain ⟨pieces, -, h⟩ := bind_eq_ok_iff.mp h
  split at h
  · simp at h
  · obtain ⟨above, -, h⟩ := bind_eq_ok_iff.mp h
    obtain ⟨l, -, h⟩ := bind_eq_ok_iff.mp h
    split at h
    · simp at h
    · next hl =>
      obtain rfl := Except.ok.inj h
      exact grows_put_directory (by simpa using hl)

theorem createUpTo_grows (fuel : ℕ) (t : FileTree) (p : Path) :
    Grows t (createUpTo fuel t p).1 := by
  induction fuel generalizing t p with
  | zero => exact .refl t
  | succ fuel ih =>
    unfold createUpTo
    extract_lets attempt
    have hattempt : ∀ t onMissing, Grows t onMissing.1 → Grows t (attempt t onMissing).1 := by
      intro t onMissing hm
      unfold attempt
      split
      · next hc => exact createDirectory_eq_ok hc
      · exact hm
      · exact .refl t
    split
    · exact .refl t
    · apply hattempt
      cases p.parent? with
      | none => exact .refl t
      | some above =>
        have hup := ih t above
        dsimp only
        split
        · next heq => rwa [heq] at hup
        · next heq =>
          rw [heq] at hup
          exact hup.trans (hattempt _ _ (.refl _))

theorem createDirectories_grows (t : FileTree) (p : Path) :
    Grows t (t.createDirectories p).1 := createUpTo_grows _ t p

theorem createDrawn_eq_ok {t t' : FileTree} {parent path : Path} {start : Text} {n tries : ℕ}
    (h : t.createDrawn parent start n tries = .ok (path, t')) :
    Grows t t' ∧ ∃ e : Suffix, path = parent.join ⟨start ++ e.text⟩ := by
  induction tries generalizing n with
  | zero => exact nomatch h
  | succ tries ih =>
    rw [createDrawn] at h
    split at h
    · next t'' hmade =>
      obtain ⟨rfl, rfl⟩ := Prod.mk.inj (Except.ok.inj h)
      exact ⟨createDirectory_eq_ok hmade, t.drawn n, rfl⟩
    · exact ih h
    · exact nomatch h

/-- A directory with a new name lies in the one that was asked for, whatever the draws give. -/
theorem createFresh_eq_ok {t t' : FileTree} {parent path : Path} {start : Text}
    (h : t.createFresh parent start = .ok (path, t')) :
    Grows t t' ∧ ∃ e : Suffix, path = parent.join ⟨start ++ e.text⟩ :=
  createDrawn_eq_ok h

end Errata.FileTree
