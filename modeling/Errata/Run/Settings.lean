import Errata.File.Document

/-!
# Settings of a run
-/
namespace Errata

/-- How the linter is called: its program, and the arguments before the files. -/
structure LinterCall where
  program : Text := "vale"
  args : List Text := ["--output=JSON"]
  deriving DecidableEq, Repr

structure Settings where
  /-- Relative paths in the linter's payload are taken from here. -/
  workingDir : Path := "."
  maxWorkers : Nat := 8
  /-- Larger files are reported and not read. -/
  maxFileBytes : Nat := Cache.defaultMaxBytes
  /-- Where the backup directory is made; the place for temporary files if none is given. -/
  backupRoot : Option Path := none
  linter : LinterCall := {}
  deriving DecidableEq, Repr

namespace Settings

/-- No run works on more files at the same time. -/
def workerCap : Nat := 8

/-- How many of `files` files are worked on at the same time: at least one, at most the cap. -/
def workersFor (s : Settings) (files : Nat) : Nat :=
  min (min (max s.maxWorkers 1) workerCap) (max files 1)

end Settings

end Errata
