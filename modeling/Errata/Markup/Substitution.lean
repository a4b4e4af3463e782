import Errata.Text.Basic

/-!
# Substitutions

A block of markup names the substitutions that are made in it by a `subs` expression. A reserved
word on its own stands for a whole set; otherwise the comma-separated tokens are applied from left
to right: `+x` and `x+` add, `-x` removes, and a bare `x` starts over with just `x`.
-/
namespace Errata.Markup

/-- A set of substitution names, in their order and without repetition. -/
abbrev Substitutions := List Text

namespace Substitutions

/-- The substitution that puts characters in for entities and other short forms. -/
def replacements : Text := "replacements"

def normal : List Text :=
  ["specialcharacters", "quotes", "attributes", "replacements", "macros", "post_replacements"]

def verbatim : List Text := ["specialcharacters"]

def insert (name : Text) : Substitutions → Substitutions
  | [] => [name]
  | n :: ns =>
    if name < n then name :: n :: ns
    else if n < name then n :: insert name ns
    else n :: ns

def addAll (s : Substitutions) (names : List Text) : Substitutions :=
  names.foldl (fun s name => insert name s) s

def removeAll (s : Substitutions) (names : List Text) : Substitutions :=
  s.filter fun name => !names.contains name

def ofNames (names : List Text) : Substitutions := addAll [] names

/-- The set that an expression names as a whole. -/
def reserved? (expr : Text) : Option Substitutions :=
  let expr := Text.lower expr
  if expr = "normal" ∨ expr = "n" then some (ofNames normal)
  else if expr = "verbatim" ∨ expr = "v" then some (ofNames verbatim)
  else if expr = "none" ∨ expr = "default" then some []
  else none

/-- The substitutions that the name in a token stands for. -/
def expand (token : Text) : List Text :=
  let token := Text.lower (Text.trim token)
  if token = "" ∨ token = "none" then []
  else if token = "normal" ∨ token = "n" then normal
  else if token = "verbatim" ∨ token = "v" then verbatim
  else if token = "specialchars" ∨ token = "c" then ["specialcharacters"]
  else if token = "q" then ["quotes"]
  else if token = "a" then ["attributes"]
  else if token = "r" then ["replacements"]
  else if token = "m" then ["macros"]
  else if token = "p" then ["post_replacements"]
  else [token]

/-- What a token does to the set before it. -/
inductive Token where
  | add (name : Text)
  | remove (name : Text)
  | only (name : Text)
  deriving DecidableEq, Repr

namespace Token

def ofText (t : Text) : Token :=
  if t.head? = some '+' then .add t.tail
  else if t.getLast? = some '+' then .add t.dropLast
  else if t.head? = some '-' then .remove t.tail
  else .only t

def apply (s : Substitutions) : Token → Substitutions
  | .add name => s.addAll (expand name)
  | .remove name => s.removeAll (expand name)
  | .only name => ofNames (expand name)

end Token

/-- The tokens of an expression; empty ones do not count. -/
def tokens (expr : Text) : List Token :=
  (((expr.splitOn ',').map Text.trim).filter fun t => !t.isEmpty).map Token.ofText

/-- The substitutions that an expression leaves, starting from `base`. -/
def resolve (expr : Text) (base : Substitutions) : Substitutions :=
  let expr := Text.trim expr
  (reserved? expr).getD ((tokens expr).foldl Token.apply base)

end Substitutions

end Errata.Markup
