import Errata.Run.Settings
import Errata.Toml.Reader

/-!
# Configuration files

A configuration file may say how the linter is called and how a run goes. What the command line says
wins over it, and what neither says keeps its default. Keys that mean nothing are ignored as long as
their values are sound; what a list holds beyond the settings is not looked at.
-/
namespace Errata

/-- What a configuration file sets. -/
structure Configuration where
  program : Option Text := none
  args : Option (List Text) := none
  maxWorkers : Option Nat := none
  maxFileBytes : Option Nat := none
  backupDir : Option Path := none
  deriving DecidableEq, Repr

structure Overrides where
  linter : Option Text := none
  maxWorkers : Option Nat := none
  maxFileBytes : Option Nat := none
  backupDir : Option Path := none
  deriving DecidableEq, Repr

namespace Configuration

def fileName : Path := "docfix.toml"

/-- The values of the fields of a section: by their names in a sound table, or by their places in a
list. A time stands for a section that sets none of them. -/
def section? (names : List Text) : Option Toml → Option (List (Option Toml))
  | none | some (.time _) => some (names.map fun _ => none)
  | some (.table entries) =>
    if Toml.haveSound entries then some (names.map fun name => Toml.get? name (.table entries))
    else none
  | some (.array items) => some ((List.range names.length).map fun i => items[i]?)
  | some _ => none

def text? : Toml → Option Text
  | .string t => some t
  | _ => none

def texts? : Toml → Option (List Text)
  | .array items => items.mapM text?
  | _ => none

/-- A number that is not negative and fits a word of 64 bits. -/
def nat? : Toml → Option Nat
  | .integer n => if 0 ≤ n ∧ n.toNat < UInt64.size then some n.toNat else none
  | _ => none

def field? {α : Type} (read : Toml → Option α) : Option Toml → Option (Option α)
  | none => some none
  | some v => (read v).map some

/-- The entries of a document apart from the sections. -/
def remainder : Toml → List (Text × Toml)
  | .table entries => entries.filter fun e => e.1 ≠ "linter" ∧ e.1 ≠ "run"
  | _ => []

def ofToml? (t : Toml) : Option Configuration := do
  guard (Toml.haveSound (remainder t))
  match ← section? ["program", "args"] (t.get? "linter"),
      ← section? ["max_workers", "max_file_bytes", "backup_dir"] (t.get? "run") with
  | [program, args], [maxWorkers, maxFileBytes, backupDir] =>
    some {
      program := ← field? text? program
      args := ← field? texts? args
      maxWorkers := ← field? nat? maxWorkers
      maxFileBytes := ← field? nat? maxFileBytes
      backupDir := (← field? text? backupDir).map Path.mk }
  | _, _ => none

/-- The configuration that a text writes; none if it is not TOML or a value has the wrong type. -/
def read? (text : Text) : Option Configuration := (Toml.read? text).bind ofToml?

def faultMessage : Text := "invalid TOML"

/-- The settings of a run in `workingDir`, to which a relative backup directory belongs. -/
def settings (c : Configuration) (workingDir : Path) (o : Overrides) : Settings :=
  let defaults : Settings := {}
  { workingDir := workingDir
    maxWorkers := (o.maxWorkers.or c.maxWorkers).getD defaults.maxWorkers
    maxFileBytes := (o.maxFileBytes.or c.maxFileBytes).getD defaults.maxFileBytes
    backupRoot := (o.backupDir.or c.backupDir).map workingDir.join
    linter := {
      program := (o.linter.or c.program).getD defaults.linter.program
      args := c.args.getD defaults.linter.args } }

/-- The configuration of a working directory: the default one if there is no file, none if the file
cannot be read. -/
def load? (t : FileTree) (workingDir : Path) : Option Configuration :=
  let file := workingDir.join fileName
  match t.find file with
  | .error _ => some {}
  | .ok .directory => none
  | .ok (.file content) => (content.utf8Decode?).bind fun cs => read? cs.toList

end Configuration

end Errata
