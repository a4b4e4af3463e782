import Errata.Command.Arguments
import Errata.Command.Text
import Errata.Json.Writer
import Errata.Linter.Command
import Errata.Rule.Builtin
import Errata.Run.Session

/-!
# The program

The program as a function of its command line and its surroundings: the files, the way programs are
started, and the time. It gives what is printed, the exit code and the files afterwards.
-/
namespace Errata

/-- What the program finds around it. -/
structure Surroundings where
  tree : FileTree
  launch : Invocation → Except Text ProcessResult
  startedAt : Instant
  endedAt : Instant

structure Outcome where
  exitCode : Nat
  stdout : Text
  /-- The error that is logged, if there is one. -/
  error : Option Text
  tree : FileTree

namespace Program

/-- The name under which errors are logged. -/
def name : Text := "docfix"

def versionText : Text := name ++ " 0.1.0"

def helpText : List Text := [
  "Apply safe, classified fixes for Vale findings in AsciiDoc modules.",
  [],
  "Usage: docfix <COMMAND>",
  [],
  "Commands:",
  "  check       Lint files and report the fixes that would be made, without changing anything",
  "  fix         Lint files and apply fixes in place (originals are backed up first)",
  "  list-rules  List the built-in rules in the order they run",
  "  help        Print this message or the help of the given subcommand(s)",
  [],
  "Options:",
  "  -h, --help     Print help",
  "  -V, --version  Print version"]

/-- Lines as they are printed, each with its end. -/
def printed (lines : List Text) : Text := lines.flatMap (· ++ ['\n'])

def success (s : Surroundings) (stdout : Text) : Outcome := ⟨0, stdout, none, s.tree⟩

def failure (s : Surroundings) (code : Nat) (error : Text) : Outcome :=
  ⟨code, [], some error, s.tree⟩

def settings (s : Surroundings) (args : RunArguments) : Except Text Settings :=
  match Configuration.load? s.tree args.workingDir with
  | none => .error "load docfix.toml config"
  | some config =>
    match args.rule with
    | some rule =>
      if (Registry.builtin.rule? rule).isSome then
        .ok (config.settings args.workingDir args.overrides)
      else .error ("unknown rule " ++ Text.quote rule ++ " (see `docfix list-rules`)")
    | none => .ok (config.settings args.workingDir args.overrides)

/-- The call of the linter that a run makes. -/
def invocation (settings : Settings) (args : RunArguments) : Invocation :=
  Invocation.ofLinter settings.linter (some settings.workingDir) args.files

/-- The files that the linter reports on, which are those that a run looks at. -/
def sources (s : Surroundings) (settings : Settings) (args : RunArguments) : List Path :=
  let call := invocation settings args
  match (Session.new Registry.builtin settings).violations (call.payload (s.launch call)) with
  | .ok vs => (Group.byFile vs).map (·.1)
  | .error _ => []

/-- A run and what it prints. -/
def run (s : Surroundings) (args : RunArguments) (dryRun : Bool) : Outcome :=
  match settings s args with
  | .error e => failure s 1 e
  | .ok settings =>
    let call := invocation settings args
    let (report, _, tree) := (Session.new Registry.builtin settings).run s.tree
      (call.payload (s.launch call)) ⟨dryRun, args.rule, s.startedAt, s.endedAt⟩
    let stdout := match args.format with
      | .text => printed (report.lines dryRun)
      | .json => printed [report.toJson.pretty]
    match report.verdict with
    | .ok () => ⟨0, stdout, none, tree⟩
    | .error e => ⟨e.exitCode, stdout, some e.message, tree⟩

def listRules (format : ReportFormat) : Text :=
  let rules := Registry.builtin.runningOrder
  match format with
  | .text => printed (Rule.table rules)
  | .json => printed [Json.pretty (.array (rules.map Rule.toJson))]

def perform (s : Surroundings) : Command → Outcome
  | .check args => run s args true
  | .fix args dryRun => run s args dryRun
  | .listRules format => success s (listRules format)
  | .help => success s (printed helpText)
  | .version => success s (printed [versionText])

/-- The exit code of a command line that is not understood. -/
def usageExitCode : Nat := 2

/-- What the program does with a command line. -/
def main (s : Surroundings) (args : List Text) : Outcome :=
  match Command.parse? args with
  | some command => perform s command
  | none => failure s usageExitCode "the command line is not understood"

end Program

end Errata
