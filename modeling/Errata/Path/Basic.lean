import Errata.Text.Basic

/-!
# Paths

A path keeps the text it was given, but what it names is its sequence of components: repeated
slashes, a trailing slash and every `.` that is not first do not count. Comparison, grouping and
prefixes work on the components; joining works on the text.
-/
namespace Errata

/-- A path, as it was written. -/
structure Path where
  text : Text
  deriving DecidableEq, Repr

instance : Coe String Path := ⟨fun s => ⟨s.toList⟩⟩

namespace Path

inductive Component where
  | root
  | current
  | parent
  | name (n : Text)
  deriving DecidableEq, Repr

namespace Component

def text : Component → Text
  | .root => ['/']
  | .current => ['.']
  | .parent => ['.', '.']
  | .name n => n

def name? : Component → Option Text
  | .name n => some n
  | _ => none

/-- The sort key of a component: the root comes first, then `.`, `..` and the names by their
characters. -/
def key : Component → List Nat
  | .root => [0]
  | .current => [1]
  | .parent => [2]
  | .name n => 3 :: n.map Char.toNat

end Component

def isAbsolute (p : Path) : Bool := p.text.head? == some '/'

/-- What one piece between slashes stands for, if anything. -/
def ofPiece (piece : Text) : Option Component :=
  if piece = [] || piece = ['.'] then none
  else if piece = ['.', '.'] then some .parent
  else some (.name piece)

/-- The components that the text names. -/
def components (p : Path) : List Component :=
  match p.text.splitOn '/' with
  | [] => []
  | first :: rest =>
    (if p.isAbsolute then [.root]
      else if first = ['.'] then [.current]
      else (ofPiece first).toList) ++ rest.filterMap ofPiece

def same (p q : Path) : Bool := p.components == q.components

/-- The order of paths: component by component. -/
def key (p : Path) : List (List Nat) := p.components.map Component.key

/-- `q` below `p`; an absolute `q` stands for itself. -/
def join (p q : Path) : Path :=
  if q.isAbsolute then q
  else if p.text.getLast?.any (· != '/') then ⟨p.text ++ ['/'] ++ q.text⟩
  else ⟨p.text ++ q.text⟩

/-- The name at the end of the path, if it ends in one. -/
def fileName? (p : Path) : Option Text := p.components.getLast?.bind Component.name?

/-- Drops, from the end of a text that is given reversed, the separators and `.` that do not count;
a lone root stays. -/
def dropTail (r : Text) : Text :=
  match r with
  | ['/'] => ['/']
  | '/' :: r => dropTail r
  | '.' :: '/' :: r => dropTail ('/' :: r)
  | r => r
termination_by r.length

/-- The path without its last component; the root and the empty path have none. -/
def parent? (p : Path) : Option Path :=
  match p.components.getLast? with
  | none | some .root => none
  | some _ => some ⟨(dropTail ((dropTail p.text.reverse).dropWhile (· != '/'))).reverse⟩

def ofNames (names : List Text) : Path := ⟨List.intercalate ['/'] names⟩

/-- The components that remain behind the directory `base`, if the path lies below it. -/
def behind? (base p : Path) : Option (List Component) :=
  base.components.isPrefixOf? p.components

end Path

end Errata
