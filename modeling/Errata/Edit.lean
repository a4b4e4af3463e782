import Errata.Fix
import Errata.Text.Boundary
import Errata.Text.Lines

/-!
# Making fixes

The fixes of one file are made in a single pass from its last line to its first, so that no edit
moves a line that a later one addresses. On one line the replacements come before the insertions
and the rightmost column comes first. The lines are joined again with one terminator for the whole
text: `\r\n` if the text has one anywhere.
-/
namespace Errata.Edit

/-- `a` is made no later than `b`. -/
def precedes (a b : Fix) : Bool :=
  if a.row = b.row then
    if a.placement.inserts = b.placement.inserts then
      b.violation.col ≤ a.violation.col
    else b.placement.inserts
  else b.row < a.row

/-- The fixes in the order in which they are made; ties keep the order they came in. -/
def order (fixes : List Fix) : List Fix := fixes.mergeSort precedes

/-- The byte of a line at which the occurrence of `needle` starts that `column` means: the first one
from the column on, else the last one in a window that ends the needle's length behind the column.
Without a result if the line is cut within a character, or a boundary is looked for without end. -/
def locate? (needle : Text) (column : Nat) (line : Text) : Option (Option Nat) := do
  let start := Text.offset column line
  match Text.byteOf? needle (← Text.startingAt? start line) with
  | some i => some (some (start + i))
  | none =>
    let stop ← Text.roundUp? (min (start + Text.size needle) (Text.size line)) line
    some (Text.lastByteOf? needle (← Text.upTo? stop line))

/-- Replaces the occurrence of `needle` that `column` means: the line afterwards, and whether there
was one. Without a result where `locate?` has none. -/
def replaceNear? (needle : Text) (column : Nat) (new line : Text) : Option (Text × Bool) :=
  if needle.isEmpty then some (line, false)
  else do
    match ← locate? needle column line with
    | some start =>
      some (← Text.overwriteBytes? line start (start + Text.size needle) new, true)
    | none => some (line, false)

def overwriteNear? (needle : Text) (column : Nat) (new line : Text) : Option Text := do
  let (edited, found) ← replaceNear? needle column new line
  if found then some edited else none

/-- The lines that a fix puts in, without carriage returns at their ends. -/
def newLines (f : Fix) : List Text :=
  (f.replacement.splitOn '\n').map (Text.dropEndWhile (· == '\r'))

/-- Puts the lines of a fix in before line `n`, which may be just past the last one. -/
def insertBefore? (n : Nat) (f : Fix) (lines : List Text) : Option (List Text) :=
  if n ≤ lines.length then some (lines.take n ++ newLines f ++ lines.drop n) else none

/-- The lines after one fix; none if what it addresses is not there. -/
def make? (f : Fix) (lines : List Text) : Option (List Text) :=
  match f.placement with
  | .replaceLine n =>
    if n < lines.length then some (lines.take n ++ newLines f ++ lines.drop (n + 1)) else none
  | .insertLine n => insertBefore? n f lines
  | .insertAbove => insertBefore? f.violation.row f lines
  | .atMatch => do
    let line ← lines[f.violation.row]?
    let line ← overwriteNear? f.needle f.violation.col f.replacement line
    some (lines.set f.violation.row line)

structure Progress where
  lines : List Text
  applied : List Fix
  skipped : List Fix

def Progress.step (p : Progress) (f : Fix) : Progress :=
  match make? f p.lines with
  | some lines => { p with lines := lines, applied := p.applied ++ [f] }
  | none => { p with skipped := p.skipped ++ [f] }

def pass (lines : List Text) (fixes : List Fix) : Progress :=
  (order fixes).foldl Progress.step ⟨lines, [], []⟩

def terminator (content : Text) : Text := if Text.hasCrlf content then ['\r', '\n'] else ['\n']

/-- Joins lines; the last one is terminated too if `closed`. -/
def joinLines (terminator : Text) (closed : Bool) (lines : List Text) : Text :=
  List.intercalate terminator lines ++ if closed && !lines.isEmpty then terminator else []

structure Outcome where
  content : Text
  applied : List Fix
  skipped : List Fix

def apply (content : Text) (fixes : List Fix) : Outcome :=
  let p := pass (Text.lines content) fixes
  let closed := content.isEmpty || Text.endsInNewline content
  ⟨joinLines (terminator content) closed p.lines, p.applied, p.skipped⟩

end Errata.Edit
