import Errata.Text.Lines
import Errata.Markup.Substitution

/-!
# Blocks

A fence line opens a listing, literal or passthrough block and the next line equal to it closes the
block; `////` opens and closes a comment, in which nothing opens. A block takes its `subs`
expression from an attribute line among the two lines above its fence, by preference one that has
such an expression. The scan goes over the lines once and keeps what the next line needs.
-/
namespace Errata.Markup

/-- Opens and closes a comment block. -/
def commentFence : Text := "////"

inductive Fence where
  | listing
  | literal
  | passthrough
  deriving DecidableEq, Repr

namespace Fence

def all : List Fence := [.listing, .literal, .passthrough]

def delimiter : Fence → Text
  | .listing => "----"
  | .literal => "...."
  | .passthrough => "++++"

def ofDelimiter? (line : Text) : Option Fence := all.find? (·.delimiter = line)

end Fence

/-- A block that is open at some line. -/
structure Block where
  fence : Fence
  /-- The line of its opening fence, counted from zero. -/
  line : Nat
  /-- The `subs` expression of its attribute line, as it is written there. -/
  subs : Option Text
  deriving DecidableEq, Repr

/-- The substitutions that are made inside the block: none unless its attributes say so. -/
def Block.active (b : Block) : Substitutions :=
  match b.subs with
  | some expr => Substitutions.resolve expr []
  | none => []

namespace Attribute

/-- What follows the word `subs`, blanks and `=`. -/
def afterName? (s : Text) : Option Text :=
  match List.isPrefixOf? "subs".toList s with
  | some r =>
    match r.dropWhile Text.isBlank with
    | '=' :: r => some (r.dropWhile Text.isBlank)
    | _ => none
  | none => none

/-- The text up to a closing quote. -/
def upTo? (quote : Char) (s : Text) : Option Text :=
  if quote ∈ s then some (s.takeWhile (· != quote)) else none

/-- The value of an attribute: quoted either way, or up to a comma or bracket. -/
def value (s : Text) : Text :=
  let bare := s.takeWhile fun c => c != ',' && c != ']'
  match s with
  | '"' :: r => (upTo? '"' r).getD bare
  | '\'' :: r => (upTo? '\'' r).getD bare
  | _ => bare

/-- The value of `subs` where its name follows a bracket, a comma or a blank. -/
def within? : Text → Option Text
  | [] => none
  | c :: r =>
    if c = '[' ∨ c = ',' ∨ Text.isBlank c then
      match afterName? r with
      | some v => some (value v)
      | none => within? r
    else within? r

/-- The `subs` expression of a line, without blanks around it. -/
def subs? (line : Text) : Option Text :=
  (((afterName? line).map value).or (within? line)).map Text.trim

def isLine (line : Text) : Bool :=
  line.head? == some '[' && line.getLast? == some ']' && !List.isPrefixOf ['[', '['] line

/-- The `subs` expression that the lines above a fence give it, the nearest line first. -/
def subsAbove (above : List Text) : Option Text :=
  let candidates := (above.map Text.trim).filter isLine
  ((candidates.find? fun line => (subs? line).isSome).or candidates.head?).bind subs?

end Attribute

inductive Region where
  | prose
  | comment
  | block (b : Block)
  deriving DecidableEq, Repr

structure Scan where
  /-- How many lines have been read. -/
  index : Nat
  /-- The last two of them, the nearest first. -/
  above : List Text
  region : Region
  deriving DecidableEq, Repr

namespace Scan

def start : Scan := ⟨0, [], .prose⟩

def regionAfter (s : Scan) (line : Text) : Region :=
  let line := Text.trim line
  match s.region with
  | .comment => if line = commentFence then .prose else .comment
  | .block b => if line = b.fence.delimiter then .prose else .block b
  | .prose =>
    if line = commentFence then .comment
    else match Fence.ofDelimiter? line with
      | some fence => .block ⟨fence, s.index, Attribute.subsAbove s.above⟩
      | none => .prose

def step (s : Scan) (line : Text) : Scan :=
  ⟨s.index + 1, line :: s.above.take 1, s.regionAfter line⟩

def after (lines : List Text) : Scan := lines.foldl step start

end Scan

/-- The block that is open at line `n`. -/
def blockAt (lines : List Text) (n : Nat) : Option Block :=
  match (Scan.after (lines.take n)).region with
  | .block b => some b
  | _ => none

/-- Marks the lines from one comment delimiter to the next, both included; `inside` tells whether
one is open. -/
def markComments (inside : Bool) : List Text → List Bool
  | [] => []
  | line :: lines =>
    let delimiter := Text.trim line == commentFence
    (inside || delimiter) :: markComments (inside != delimiter) lines

/-- Marks the lines of comment blocks. A block that is never closed runs to the end. -/
def commentLines (lines : List Text) : List Bool := markComments false lines

end Errata.Markup
