import Errata.Markup.Replaceable
import Errata.Rule.Basic

/-!
# Character entities

Named character entities are replaced by the attribute references that the markup has for them,
wherever replacements are made.
-/
namespace Errata.Rule.Entity

/-- The attribute that stands for an entity, by the entity's name. -/
def attributes : List (String × String) := [
  ("nbsp", "nbsp"), ("amp", "amp"), ("lt", "lt"), ("gt", "gt"), ("apos", "apos"),
  ("quot", "quot"), ("lsquo", "lsquo"), ("rsquo", "rsquo"), ("ldquo", "ldquo"),
  ("rdquo", "rdquo"), ("deg", "deg"), ("plus", "plus"), ("brvbar", "brvbar"),
  ("verbar", "vbar"), ("vert", "vbar"), ("lsqb", "startsb"), ("lbrack", "startsb"),
  ("rsqb", "endsb"), ("rbrack", "endsb"), ("Hat", "caret"), ("ast", "asterisk"),
  ("midast", "asterisk"), ("tilde", "tilde"), ("bsol", "backslash"), ("grave", "backtick"),
  ("ZeroWidthSpace", "zwsp"), ("NoBreak", "wj")]

def entityText (name : String) : Text := ['&'] ++ name.toList ++ [';']

def referenceText (name : String) : Text := ['\x7b'] ++ name.toList ++ ['\x7d']

/-- The reference for an entity with its terminator. -/
def lookup? (entity : Text) : Option Text :=
  (attributes.find? fun entry => entityText entry.1 == entity).map fun entry =>
    referenceText entry.2

/-- The reference for a matched entity, which may lack its terminator. -/
def replacement? (matched : Text) : Option Text :=
  let matched := Text.trim matched
  lookup? (if matched.getLast? = some ';' then matched else matched ++ [';'])

/-- The entity as it is written near a column of a line: the match without its terminator, and the
terminator if the line has one there. -/
def written (line : Text) (column : Nat) (matched : Text) : Text :=
  let matched := Text.trim matched
  let bare := Text.dropEndWhile (· == ';') matched
  match Text.findNear? bare column line with
  | some start =>
    if (line.drop (start + bare.length)).head? = some ';' then bare ++ [';'] else bare
  | none => matched

def plan (v : Violation) (content : Text) : Option Fix := do
  let replacement ← replacement? v.originalText
  let lines := Text.lines content
  if Markup.mayReplace lines v.row v.col then
    let target := match lines[v.row]? with
      | some line => written line v.col v.originalText
      | none => Text.trim v.originalText
    some <| ((Fix.new v replacement .atMatch .fully).setDescription
      ("Replace " ++ target ++ " with " ++ replacement)).setTarget target
  else none

end Entity

def entityReference : Rule where
  name := "EntityReference"
  determinism := .fully
  dependencies := []
  accepts v := (Entity.replacement? v.originalText).isSome
  plan := Entity.plan

end Errata.Rule
