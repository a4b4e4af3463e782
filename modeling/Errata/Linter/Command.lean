import Errata.File.Tree
import Errata.Linter.Output
import Errata.Run.Settings

/-!
# Linter commands

The linter is a program that is called with its arguments and the files to look at, in a directory
of choice. A program without a slash in its name is looked for among those that are installed. How a
program is started is up to the caller, who also gives the result.
-/
namespace Errata

structure Invocation where
  program : Text
  args : List Text
  /-- The directory to start it in, if not the current one. -/
  dir : Option Path
  deriving DecidableEq, Repr

/-- Why a program cannot be started. -/
inductive StartError where
  /-- Some part of the call holds a NUL. -/
  | nul
  | system (cause : Cause)
  deriving DecidableEq, Repr

def StartError.message : StartError → Text
  | .nul => "nul byte found in provided data"
  | .system cause => cause.message

namespace Invocation

def ofLinter (l : LinterCall) (dir : Option Path) (files : List Path) : Invocation :=
  ⟨l.program, l.args ++ files.map (·.text), dir⟩

/-- Some part of the call holds a NUL, which no system takes. -/
def hasNul (i : Invocation) : Bool :=
  (i.program :: i.args ++ (i.dir.map (·.text)).toList).any fun t => '\x00' ∈ t

/-- What keeps a program from being found, in a tree of which nothing is a program itself. -/
def fault? (installed : List Text) (t : FileTree) (program : Text) : Option Cause :=
  if '/' ∈ program then
    match t.find ⟨program⟩ with
    | .error c => some c
    | .ok _ => some .permissionDenied
  else if program = ['.'] ∨ program = ['.', '.'] then some .permissionDenied
  else if 255 < FileTree.bytes program then some .nameTooLong
  else if program ∈ installed then none
  else some .notFound

/-- Where the program of a call starts. -/
def start (i : Invocation) (installed : List Text) (t : FileTree) :
    Except StartError Location := do
  if i.hasNul then throw .nul
  let l ← ((i.dir.map t.resolve).getD (.ok t.current)).mapError .system
  match t.get? l with
  | none => throw (.system .notFound)
  | some (.file _) => throw (.system .notADirectory)
  | some .directory =>
    match fault? installed { t with current := l } i.program with
    | some c => throw (.system c)
    | none => return l

/-- The payload of a linter that was started or could not be. -/
def payload (i : Invocation) (result : Except Text ProcessResult) : Except LintError Text :=
  match result with
  | .error reason => .error (.launch i.program reason)
  | .ok r => r.payload i.program

end Invocation

end Errata
