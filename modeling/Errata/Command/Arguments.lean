import Errata.Run.Configuration

/-!
# Command lines

A command line names a command and then gives options and files in any order; behind `--` there are
only files. An option may be given once, with its value behind it or behind a `=`.
-/
namespace Errata

inductive ReportFormat where
  | text
  | json
  deriving DecidableEq, Repr

structure RunArguments where
  files : List Path
  rule : Option Text
  workingDir : Path
  overrides : Overrides
  format : ReportFormat
  deriving DecidableEq, Repr

inductive Command where
  /-- Report the fixes that would be made. -/
  | check (args : RunArguments)
  /-- Make the fixes, unless the run is dry. -/
  | fix (args : RunArguments) (dryRun : Bool)
  | listRules (format : ReportFormat)
  | help
  | version
  deriving DecidableEq, Repr

namespace Command

/-- What a command takes: options with a value, options without, and whether it takes files. -/
structure Grammar where
  valued : List Text
  plain : List Text
  files : Bool

/-- What a command line gives for a command. -/
structure Given where
  values : List (Text × Text)
  flags : List Text
  files : List Text
  /-- Help was asked for. -/
  help : Bool

def formatNames : List (Text × ReportFormat) := [("text", .text), ("json", .json)]

/-- A number of at most 64 bits, perhaps with a plus sign. -/
def number? (t : Text) : Option Nat :=
  let ds := if t.head? = some '+' then t.tail else t
  if ds.isEmpty ∨ ¬ ds.all Char.isDigit ∨ UInt64.size ≤ Text.digitsValue ds then none
  else some (Text.digitsValue ds)

/-- The value can be one of this option. -/
def suits (name value : Text) : Bool :=
  if name = "max-workers" ∨ name = "max-file-bytes" then (number? value).isSome
  else if name = "format" then (formatNames.lookup value).isSome
  else true

def splitOption (t : Text) : Text × Option Text :=
  match t.dropWhile (· != '=') with
  | _ :: value => (t.takeWhile (· != '='), some value)
  | [] => (t, none)

/-- Looks like an option: starts with a hyphen and is longer. -/
def looksLikeOption (t : Text) : Bool := t.head? = some '-' && 1 < t.length

/-- Reads the arguments behind a command; none if they do not fit it. Reading ends where help is
asked for. -/
def read? (g : Grammar) (acc : Given) : List Text → Option Given
  | [] => some acc
  | arg :: rest =>
    match arg with
    | ['-', '-'] =>
      if g.files ∨ rest.isEmpty then some { acc with files := acc.files ++ rest } else none
    | '-' :: '-' :: option =>
      let (name, attached) := splitOption option
      if name = "help" then if attached.isNone then some { acc with help := true } else none
      else if g.plain.contains name then
        if attached.isNone ∧ ¬ acc.flags.contains name then
          read? g { acc with flags := acc.flags ++ [name] } rest
        else none
      else if g.valued.contains name ∧ (acc.values.lookup name).isNone then
        match attached, rest with
        | some value, rest =>
          if suits name value then read? g { acc with values := acc.values ++ [(name, value)] } rest
          else none
        | none, value :: rest =>
          if ¬ looksLikeOption value ∧ suits name value then
            read? g { acc with values := acc.values ++ [(name, value)] } rest
          else none
        | none, [] => none
      else none
    | '-' :: 'h' :: _ => some { acc with help := true }
    | '-' :: _ :: _ => none
    | file => if g.files then read? g { acc with files := acc.files ++ [file] } rest else none

def Given.value? (x : Given) (name : String) : Option Text := x.values.lookup name.toList

def Given.format (x : Given) : ReportFormat :=
  ((x.value? "format").bind fun t => formatNames.lookup t).getD .text

def runOptions : List Text :=
  ["rule", "working-dir", "linter", "max-workers", "max-file-bytes", "backup-dir", "format"]

def Given.runArguments? (x : Given) : Option RunArguments :=
  if x.files.isEmpty then none
  else some {
    files := x.files.map Path.mk
    rule := x.value? "rule"
    workingDir := ⟨(x.value? "working-dir").getD "."⟩
    overrides := {
      linter := x.value? "linter"
      maxWorkers := (x.value? "max-workers").bind number?
      maxFileBytes := (x.value? "max-file-bytes").bind number?
      backupDir := (x.value? "backup-dir").map Path.mk }
    format := x.format }

def ofGiven? (g : Grammar) (args : List Text) (command : Given → Option Command) : Option Command :=
  match read? g ⟨[], [], [], false⟩ args with
  | none => none
  | some x => if x.help then some .help else command x

def names : List Text := ["check", "fix", "list-rules", "help"]

/-- The command that a command line gives; none if it is not understood. -/
def parse? : List Text → Option Command
  | [] => none
  | name :: args =>
    if name = "check" then
      ofGiven? ⟨runOptions, [], true⟩ args fun x => x.runArguments?.map .check
    else if name = "fix" then
      ofGiven? ⟨runOptions, ["dry-run"], true⟩ args fun x =>
        x.runArguments?.map fun a => .fix a (x.flags.contains "dry-run".toList)
    else if name = "list-rules" then
      ofGiven? ⟨["format"], [], false⟩ args fun x => some (.listRules x.format)
    else if name = "help" then
      match args with
      | [] => some .help
      | [topic] => if names.contains topic then some .help else none
      | _ => none
    else if name = "--version" ∨ name.take 2 = "-V" then some .version
    else if name = "--help" ∨ name.take 2 = "-h" then some .help
    else none

end Command

end Errata
