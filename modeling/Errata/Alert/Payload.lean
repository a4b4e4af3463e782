import Errata.Json.Reader
import Errata.Json.Record
import Errata.Path.Normal
import Errata.Violation

/-!
# Payloads

The linter's payload is an object from file paths to alerts, listed bare or under `Alerts`. Files
are taken in the order of their keys and alerts in the order of their list. An alert or a file
entry that is not well-formed is left out; only a payload that is no object fails as a whole.
-/
namespace Errata

/-- One alert as the linter writes it. -/
structure Alert where
  check : Text
  line : Nat
  column : Option Nat
  span : Option (List Nat)
  message : Text
  severity : Text
  matched : Text
  /-- The parameters of the action that the linter proposes. -/
  params : Option (List Text)
  suggestions : Option (List Text)
  link : Option Text

namespace Alert

open Json

def paramsOfJson? (j : Json) : Option (Option (List Text)) := do
  match ← fields? ["Params"] j with
  | [params] => optional (list? text?) params
  | _ => none

def ofJson? (j : Json) : Option Alert := do
  match ← fields? ["Check", "Line", "Column", "Span", "Message", "Severity", "Match", "Action",
      "Suggestions", "Link"] j with
  | [check, line, column, span, message, severity, matched, action, suggestions, link] =>
    some {
      check := ← required text? check
      line := ← required nat? line
      column := ← optional nat? column
      span := ← optional (list? nat?) span
      message := ← defaulting [] text? message
      severity := ← defaulting [] text? severity
      matched := ← defaulting [] text? matched
      params := (← optional paramsOfJson? action).join
      suggestions := ← optional (list? text?) suggestions
      link := ← optional text? link }
  | _ => none

/-- The column at which an alert starts: its own, or that of its span. -/
def start? (a : Alert) : Option Nat :=
  match a.column with
  | some (n + 1) => some (n + 1)
  | _ =>
    match a.span with
    | some [n + 1, _] => some (n + 1)
    | _ => none

/-- The first proposal that is not empty. -/
def suggestion? (a : Alert) : Option Text :=
  let first (proposals : Option (List Text)) : Option Text :=
    (proposals.getD []).find? fun t => !t.isEmpty
  (first a.params).or (first a.suggestions)

/-- The violation that an alert reports, if it names a check and a place. -/
def violation? (file : Path) (a : Alert) : Option Violation := do
  let check := Text.trim a.check
  if check.isEmpty ∨ a.line = 0 then none
  else
    some {
      file := file
      ruleName := Violation.ruleOfCheck check
      line := a.line
      column := ← a.start?
      message := a.message
      severity := Severity.ofLinter a.severity
      originalText := a.matched
      suggestedText := a.suggestion?
      checkId := check
      link := a.link.filter fun t => !Text.blank t }

end Alert

/-- Why a payload cannot be used. -/
inductive PayloadError where
  /-- It is not JSON. -/
  | syntactic
  /-- It is JSON of another kind. -/
  | notAnObject (found : Text)
  deriving DecidableEq, Repr

namespace PayloadError

def message : PayloadError → Text
  | .syntactic => "json parse error: the text is not a JSON value"
  | .notAnObject found =>
    "linter payload must be a JSON object keyed by file path, found " ++ found

end PayloadError

namespace Payload

open Json

def alerts? : Json → Option (List Json)
  | .array alerts => some alerts
  | .object members =>
    match field? "Alerts" (.object members) with
    | some (.array alerts) => some alerts
    | _ => none
  | _ => none

def ofEntry (base : Path) (key : Text) (entry : Json) : List Violation :=
  ((alerts? entry).getD []).filterMap fun j =>
    (Alert.ofJson? j).bind (Alert.violation? (Path.normalize base ⟨key⟩))

/-- The violations that a payload reports; relative paths are taken from `base`. -/
def ofJson (base : Path) : Json → Except PayloadError (List Violation)
  | .object members => .ok ((sortMembers members).flatMap fun m => ofEntry base m.1 m.2)
  | j => .error (.notAnObject j.kind)

/-- The violations that the text of a payload reports. Of repeated keys the last one counts. -/
def read (base : Path) (text : Text) : Except PayloadError (List Violation) :=
  match Json.read? text with
  | some j => ofJson base j.canonical
  | none => .error .syntactic

end Payload

end Errata
