import Errata.File.Backups
import Errata.Proofs.File.Tree
import Errata.Proofs.Path.Names

/-!
# Where copies are kept

A copy lies below the backup directory under the names of its file, so two files are copied to the
same place exactly if their names are the same.
-/
namespace Errata

namespace FileTree

theorem foldl_walk_names {names : List Text} (h : Path.AreNames names) (l : Location) :
    names.foldl walk l = l ++ names := by
  induction names generalizing l with
  | nil => simp
  | cons n names ih =>
    obtain ⟨hempty, hdot, hdots, -⟩ := h n (by simp)
    have hw : walk l n = l ++ [n] := by simp [walk, hempty, hdot, hdots]
    rw [List.foldl_cons, hw, ih fun m hm => h m (by simp [hm])]
    simp

theorem locate_join_ofNames {dir : Path} {names : List Text} (current : Location)
    (hdir : dir.text.getLast?.any (· != '/')) (h : Path.AreNames names) :
    locate current (dir.join (Path.ofNames names)) = locate current dir ++ names := by
  have htext : (dir.join (Path.ofNames names)).text =
      dir.text ++ '/' :: (Path.ofNames names).text := by
    simp [Path.join, Path.isAbsolute_ofNames h, hdir]
  have habs : (dir.join (Path.ofNames names)).isAbsolute = dir.isAbsolute := by
    rw [Path.isAbsolute, htext, Path.isAbsolute]
    cases hd : dir.text with
    | nil => simp [hd] at hdir
    | cons c cs => simp
  have hfold : ((Path.ofNames names).text.splitOn '/').foldl walk (locate current dir) =
      locate current dir ++ names := by
    by_cases hnil : names = []
    · simp [hnil, Path.ofNames, walk, List.intercalate]
    · rw [Path.splitOn_ofNames h hnil, foldl_walk_names h]
  unfold locate at hfold ⊢
  rw [htext, List.splitOn_append_cons_self, List.foldl_append, habs, hfold]

theorem getLast?_suffix (e : Suffix) : e.text.getLast?.any (· != '/') := by
  obtain ⟨hlength, hplain⟩ := e.plain
  have hne : e.text ≠ [] := List.ne_nil_of_length_pos (by omega)
  have hlast := hplain _ (List.getLast_mem hne)
  rw [List.getLast?_eq_some_getLast hne, Option.any_some, bne_iff_ne]
  rintro hslash
  rw [hslash] at hlast
  exact absurd hlast (by decide)

theorem join_text (p q : Path) : ∃ above, (p.join q).text = above ++ q.text := by
  unfold Path.join
  split
  · exact ⟨[], rfl⟩
  · split
    · exact ⟨p.text ++ ['/'], rfl⟩
    · exact ⟨p.text, rfl⟩

theorem getLast?_fresh (parent : Path) (start : Text) (e : Suffix) :
    (parent.join ⟨start ++ e.text⟩).text.getLast?.any (· != '/') := by
  obtain ⟨above, habove⟩ := join_text parent ⟨start ++ e.text⟩
  have hlast := getLast?_suffix e
  cases hs : e.text.getLast? with
  | none => simp [hs] at hlast
  | some c => simpa [habove, List.getLast?_append, hs] using hlast

end FileTree

namespace Backups

open FileTree

/-- The same places, and the same backup directory if there was one already. -/
structure Follows (a b : Backups) : Prop where
  base : b.base = a.base
  parent : b.parent = a.parent
  dir : ∀ dir, a.dir = some dir → b.dir = some dir

/-- The path of the backup directory does not end in a separator. -/
def IsNamed (a : Backups) : Prop := ∀ dir, a.dir = some dir → dir.text.getLast?.any (· != '/')

theorem Follows.refl (a : Backups) : Follows a a := ⟨rfl, rfl, fun _ h => h⟩

theorem Follows.trans {a b c : Backups} (hab : Follows a b) (hbc : Follows b c) : Follows a c :=
  ⟨hbc.base.trans hab.base, hbc.parent.trans hab.parent, fun d h => hbc.dir d (hab.dir d h)⟩

theorem Follows.namesOf {a b : Backups} (h : Follows a b) (p : Path) :
    b.namesOf p = a.namesOf p := by
  simp [Backups.namesOf, h.base]

theorem areNames_namesOf (a : Backups) (p : Path) : Path.AreNames (a.namesOf p) := by
  apply Path.areNames_filterMap (p := p)
  intro c hc
  cases hb : Path.behind? a.base p with
  | none => simpa [hb] using hc
  | some behind =>
    rw [← List.isPrefixOf?_eq_some_iff_append_eq.mp hb]
    exact List.mem_append_right _ (by simpa [hb] using hc)

theorem locate_copy {a : Backups} {dir : Path} (current : Location)
    (hdir : dir.text.getLast?.any (· != '/')) (p : Path) :
    locate current (dir.join (a.placeOf p)) = locate current dir ++ a.namesOf p :=
  locate_join_ofNames current hdir (areNames_namesOf a p)

theorem make_grows {t t' : FileTree} {p : Option Path} {r : Option BackupError}
    (h : make t p = (t', r)) : Grows t t' := by
  cases p with
  | none =>
    obtain ⟨rfl, -⟩ := Prod.mk.inj h
    exact .refl t
  | some p =>
    obtain ⟨rfl, -⟩ := Prod.mk.inj h
    exact createDirectories_grows t p

theorem prepared_spec {a a' : Backups} {t t' : FileTree} {r : Except BackupError Path}
    (h : a.prepared t = (r, a', t')) (ha : a.IsNamed) :
    Grows t t' ∧ Follows a a' ∧ a'.IsNamed ∧ ∀ dir, r = .ok dir → a'.dir = some dir := by
  unfold prepared at h
  cases hd : a.dir with
  | some dir =>
    simp only [hd, Prod.mk.injEq] at h
    obtain ⟨rfl, rfl, rfl⟩ := h
    exact ⟨.refl t, .refl a, ha, fun d hdir => by rw [hd, Except.ok.inj hdir]⟩
  | none =>
    simp only [hd] at h
    split at h
    · next hparent =>
      obtain ⟨rfl, rfl, rfl⟩ := h
      exact ⟨make_grows hparent, .refl a, ha, by simp⟩
    · next hparent =>
      split at h
      · obtain ⟨rfl, rfl, rfl⟩ := h
        exact ⟨make_grows hparent, .refl a, ha, by simp⟩
      · next dir t'' hfresh =>
        obtain ⟨rfl, rfl, rfl⟩ := h
        obtain ⟨hgrows, e, rfl⟩ := createFresh_eq_ok hfresh
        refine ⟨(make_grows hparent).trans hgrows, ⟨rfl, rfl, fun d h => by simp [hd] at h⟩, ?_, ?_⟩
        · intro d hdir
          rw [← Option.some.inj hdir]
          exact getLast?_fresh _ _ e
        · intro d hdir
          rw [Except.ok.inj hdir]

/-- What a backup does: either nothing to the files, or one more file below the backup directory,
with the bytes of the one that is copied. -/
theorem backup_spec {a a' : Backups} {t t' : FileTree} {p : Path} {r : Except BackupError Path}
    (h : a.backup t p = (r, a', t')) (ha : a.IsNamed) :
    Follows a a' ∧ a'.IsNamed ∧ Extends t t' ∧
    match r with
    | .error _ => t'.fileAt? = t.fileAt?
    | .ok target => ∃ dir, a'.dir = some dir ∧ target = dir.join (a.placeOf p) ∧
        t'.resolve target = .ok (locate t.current dir ++ a.namesOf p) ∧
        (t.fileAt? (locate t.current p)).isSome ∧
        t'.fileAt? = Function.update t.fileAt? (locate t.current dir ++ a.namesOf p)
          (t.fileAt? (locate t.current p)) := by
  unfold backup at h
  split at h
  · next hprep =>
    obtain ⟨rfl, rfl, rfl⟩ := h
    obtain ⟨hgrows, hfollows, hnamed, -⟩ := prepared_spec hprep ha
    exact ⟨hfollows, hnamed, hgrows.toExtends, hgrows.files⟩
  · next dir b u hprep =>
    obtain ⟨hgrows, hfollows, hnamed, hdir⟩ := prepared_spec hprep ha
    simp only at h
    split at h
    · next habove =>
      obtain ⟨rfl, rfl, rfl⟩ := h
      have hmid := hgrows.trans (make_grows habove)
      exact ⟨hfollows, hnamed, hmid.toExtends, hmid.files⟩
    · next habove =>
      have hmid := hgrows.trans (make_grows habove)
      split at h
      · obtain ⟨rfl, rfl, rfl⟩ := h
        exact ⟨hfollows, hnamed, hmid.toExtends, hmid.files⟩
      · next hcopy =>
        obtain ⟨rfl, rfl, rfl⟩ := h
        obtain ⟨content, hread, hwrite⟩ := copy_eq_ok hcopy
        obtain ⟨hresolve, hextends, hfiles⟩ := write_eq_ok hwrite
        have hnames := hfollows.namesOf p
        have hplace : locate t.current (dir.join (a'.placeOf p)) =
            locate t.current dir ++ a.namesOf p := by
          rw [locate_copy _ (hnamed dir (hdir dir rfl)), hnames]
        have hcontent : t.fileAt? (locate t.current p) = some content := by
          rw [← hmid.files, ← hmid.current]
          exact fileAt?_of_read hread
        rw [hmid.current, hplace] at hresolve hfiles
        refine ⟨hfollows, hnamed, hmid.toExtends.trans hextends, dir, hdir dir rfl,
          by simp [placeOf, hnames], hextends.resolve hresolve, by simp [hcontent], ?_⟩
        rw [hfiles, hmid.files, hcontent]

end Backups

end Errata
