import Errata.File.Tree

/-!
# Backups

Before a file is changed it is copied into the backup directory of the run, to the same place below
it as the file has below the working directory. The directory is made when the first file needs it,
and it is kept.
-/
namespace Errata

structure Backups where
  /-- Places are taken relative to this directory where possible. -/
  base : Path
  /-- Where the backup directory is made; the place for temporary files if none is given. -/
  parent : Option Path
  /-- The backup directory, once there is one. -/
  dir : Option Path
  deriving DecidableEq, Repr

inductive BackupError where
  | directory (path : Path) (cause : Cause)
  | fresh (cause : Cause)
  | copy (path : Path)
  deriving DecidableEq, Repr

def BackupError.message : BackupError → Text
  | .directory path cause => FileError.message ⟨.createDirectory, path, cause⟩
  | .fresh _ => "create backup directory"
  | .copy path => "back up " ++ path.text

namespace Backups

def new (base : Path) (parent : Option Path) : Backups := ⟨base, parent, none⟩

/-- The names under which a file is kept: those of its path behind the base, or all its names if it
does not lie there. -/
def namesOf (a : Backups) (p : Path) : List Text :=
  ((Path.behind? a.base p).getD p.components).filterMap Path.Component.name?

def placeOf (a : Backups) (p : Path) : Path := Path.ofNames (a.namesOf p)

/-- Makes a directory with all that lie above it, if one is named. -/
def make (t : FileTree) : Option Path → FileTree × Option BackupError
  | some p => (t.createDirectories p).map id (·.map (BackupError.directory p))
  | none => (t, none)

def prepared (a : Backups) (t : FileTree) : Except BackupError Path × Backups × FileTree :=
  match a.dir with
  | some dir => (.ok dir, a, t)
  | none =>
    match make t a.parent with
    | (t, some e) => (.error e, a, t)
    | (t, none) =>
      match t.createFresh (t.absolute (a.parent.getD t.temporary)) "docfix-backup-" with
      | .error c => (.error (.fresh c), a, t)
      | .ok (dir, t) => (.ok dir, { a with dir := some dir }, t)

/-- Copies a file into the backup directory; gives the place of the copy. -/
def backup (a : Backups) (t : FileTree) (p : Path) :
    Except BackupError Path × Backups × FileTree :=
  match a.prepared t with
  | (.error e, a, t) => (.error e, a, t)
  | (.ok dir, a, t) =>
    let target := dir.join (a.placeOf p)
    match make t target.parent? with
    | (t, some e) => (.error e, a, t)
    | (t, none) =>
      match t.copy p target with
      | .error _ => (.error (.copy p), a, t)
      | .ok t => (.ok target, a, t)

end Backups

end Errata
