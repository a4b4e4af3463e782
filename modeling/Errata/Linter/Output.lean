import Errata.Text.Utf8

/-!
# Linter output

The linter reports on its standard output. It exits with one if it has alerts; that is a success as
long as it has written any.
-/
namespace Errata

inductive ExitStatus where
  | code (n : Nat)
  | signal (n : Nat)
  deriving DecidableEq, Repr

namespace ExitStatus

/-- The name of a signal. -/
def signalName? (n : Nat) : Option String :=
  let names := ["HUP", "INT", "QUIT", "ILL", "TRAP", "ABRT", "BUS", "FPE", "KILL", "USR1", "SEGV",
    "USR2", "PIPE", "ALRM", "TERM", "STKFLT", "CHLD", "CONT", "STOP", "TSTP", "TTIN", "TTOU",
    "URG", "XCPU", "XFSZ", "VTALRM", "PROF", "WINCH", "IO", "PWR", "SYS"]
  if n = 0 then none else names[n - 1]?

def message : ExitStatus → Text
  | .code n => "exit status: " ++ Text.ofNat n
  | .signal n =>
    "signal: " ++ Text.ofNat n ++
      match signalName? n with
      | some name => " (SIG" ++ name.toList ++ ")"
      | none => []

end ExitStatus

structure ProcessResult where
  status : ExitStatus
  stdout : ByteArray
  stderr : ByteArray

/-- Why there is no payload. -/
inductive LintError where
  /-- The program could not be started. -/
  | launch (program : Text) (reason : Text)
  | notUtf8 (program : Text) (fault : Utf8.Fault)
  | failed (program : Text) (status : ExitStatus) (stderr : Text)
  /-- A linter without a process said so. -/
  | reported (message : Text)

namespace LintError

/-- The error and its causes, the outermost one first. -/
def chain : LintError → List Text
  | .launch program reason => ["run " ++ program, reason]
  | .notUtf8 program fault => [program ++ " output is not UTF-8", fault.message]
  | .failed program status stderr =>
    [program ++ " exited with " ++ status.message ++ ": " ++ stderr]
  | .reported message => [message]

end LintError

/-- The payload in the output of a process: an empty object where the linter wrote nothing. -/
def ProcessResult.payload (r : ProcessResult) (program : Text) : Except LintError Text :=
  match Utf8.decode r.stdout.data.toList with
  | .error fault => .error (.notUtf8 program fault)
  | .ok stdout =>
    if r.status = .code 0 ∨ (r.status = .code 1 ∧ ¬ Text.blank stdout) then
      .ok (if Text.blank stdout then ['\x7b', '\x7d'] else stdout)
    else .error (.failed program r.status (Text.trim (Utf8.decodeLossy r.stderr.data.toList)))

end Errata
