import Errata.Markup.Block
import Errata.Rule.Basic

/-!
# Content types

A module declares its content type by an attribute line. Where no valid declaration is active, the
rule takes the type from a declaration that is commented out, from an attribute of an older name or
from the file name, in this order, and falls back on a placeholder that an author has to fill in.
-/
namespace Errata.Rule.ContentType

def attributeName : Text := ":_mod-docs-content-type:"

/-- The names that the attribute had before. -/
def formerNames : List Text := [":_content-type:", ":_module-type:"]

/-- Stands for a type that is not known yet. -/
def placeholder : Text := "TBD"

def types : List Text := ["ASSEMBLY", "CONCEPT", "PROCEDURE", "REFERENCE", "SNIPPET"]

/-- The first part of a file name and the type that it stands for. -/
def filePrefixes : List (Text × Text) :=
  [("assembly", "ASSEMBLY"), ("con", "CONCEPT"), ("proc", "PROCEDURE"), ("ref", "REFERENCE"),
    ("snip", "SNIPPET")]

/-- The type that a value names, in any case and with blanks around it. -/
def ofValue? (value : Text) : Option Text :=
  let value := Text.upper (Text.trim value)
  types.find? (· == value)

/-- The type that the name of a file stands for: its first part, up to an underscore or hyphen. -/
def ofFileName? (file : Path) : Option Text := do
  let name := Text.lower (← file.fileName?)
  let entry ← filePrefixes.find? fun entry =>
    match List.isPrefixOf? entry.1 name with
    | some (c :: _) => c == '_' || c == '-'
    | _ => false
  some entry.2

inductive Source where
  | active
  | commented
  | formerName
  deriving DecidableEq, Repr

structure Declaration where
  line : Nat
  source : Source
  /-- The type it declares, if its value is one. -/
  type : Option Text
  deriving DecidableEq, Repr

/-- What a line declares, and the text of the value. -/
def parse? (line : Text) : Option (Source × Text) :=
  let line := Text.trim line
  let commented : Option Text :=
    if List.isPrefixOf Markup.commentFence line then none
    else match line with
      | '/' :: '/' :: r => List.isPrefixOf? attributeName (Text.trimStart r)
      | _ => none
  (((List.isPrefixOf? attributeName line).map fun v => (.active, v)).or
    (commented.map fun v => (.commented, v))).or
    ((formerNames.findSome? fun name => List.isPrefixOf? name line).map fun v => (.formerName, v))

/-- The declarations outside of comment blocks. -/
def declarations (lines : List Text) : List Declaration :=
  ((lines.zip (Markup.commentLines lines)).zipIdx).filterMap fun ((line, hidden), n) =>
    if hidden then none
    else (parse? line).map fun (source, value) => ⟨n, source, ofValue? value⟩

/-- The type to declare, how sure it is, and the line it was taken from. -/
structure Choice where
  type : Text
  confidence : Float
  requiresReview : Bool
  foundAt : Option Nat
  reason : Text

/-- The type that the first valid declaration of a source gives. -/
def choiceFrom? (ds : List Declaration) (source : Source) (reason : Text) : Option Choice :=
  ds.findSome? fun d =>
    if d.source = source then d.type.map fun type => ⟨type, 0.9, false, some d.line, reason⟩
    else none

def choose (ds : List Declaration) (file : Path) : Choice :=
  (((choiceFrom? ds .commented "uncommented existing declaration").or
    (choiceFrom? ds .formerName "renamed deprecated attribute")).or
    ((ofFileName? file).map fun type => ⟨type, 0.8, false, none, "inferred from file name"⟩)).getD
    ⟨placeholder, 0.3, true, none, "placeholder needs a content type"⟩

/-- The number of the first line from `n` on that is not blank, or the number of lines. -/
def pastBlank (lines : List Text) (n : Nat) : Nat :=
  n + ((lines.drop n).takeWhile Text.blank).length

/-- The place behind a comment block that opens the document, and the blank lines after it; none if
there is no such block or it is never closed. -/
def afterCommentBlock? (lines : List Text) : Option Nat :=
  let start := pastBlank lines 0
  let isDelimiter (line : Text) : Bool := Text.trim line == Markup.commentFence
  match lines.drop start with
  | first :: rest =>
    if isDelimiter first then
      (rest.findIdx? isDelimiter).map fun n => pastBlank lines (start + 1 + n + 1)
    else none
  | [] => none

def isLineComment (line : Text) : Bool :=
  let line := Text.trim line
  List.isPrefixOf ['/', '/'] line && !List.isPrefixOf Markup.commentFence line

/-- The place behind the line comments at the start of the document, blank lines between and after
them included. -/
def afterLineComments (lines : List Text) : Nat :=
  let run := lines.takeWhile fun line => Text.blank line || isLineComment line
  if run.all Text.blank then 0 else run.length

def headingLine? (lines : List Text) : Option Nat :=
  lines.findIdx? fun line => List.isPrefixOf ['=', ' '] line || List.isPrefixOf ['=', '=', ' '] line

/-- The line before which a new declaration belongs: behind a comment block that opens the
document, else behind the comment lines at its start and not more than two lines above its first
heading. -/
def insertionLine (lines : List Text) : Nat :=
  match afterCommentBlock? lines with
  | some n => n
  | none =>
    let floor := afterLineComments lines
    match headingLine? lines with
    | some heading => max (heading - 2) floor
    | none => floor

def plan (v : Violation) (content : Text) : Option Fix :=
  let lines := Text.lines content
  let ds := declarations lines
  if ds.any fun d => d.source == .active && d.type.isSome then none
  else
    let choice := choose ds v.file
    let declaration := attributeName ++ [' '] ++ choice.type
    let target := (((ds.find? (·.source == .active)).map (·.line)).or choice.foundAt).or
      (ds.head?.map (·.line))
    let (placement, replacement) := match target with
      | some line => (Placement.replaceLine line, declaration)
      | none =>
        let line := insertionLine lines
        let spaced := lines[line]?.any fun next => !Text.blank next
        (Placement.insertLine line, if spaced then declaration ++ ['\n'] else declaration)
    some <| (((Fix.new v replacement placement .partially).setConfidence
      choice.confidence).setReview choice.requiresReview).setDescription
      ("Set content type to " ++ choice.type ++ " (" ++ choice.reason ++ ")")

end ContentType

def contentType : Rule where
  name := "ContentType"
  determinism := .partially
  dependencies := []
  accepts v := v.ruleName == "ContentType"
  plan := ContentType.plan

end Errata.Rule
