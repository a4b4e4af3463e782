import Errata.Toml.Scalar
import Errata.Toml.Strings
import Errata.Toml.Table

/-!
# Reading TOML

A document is a sequence of lines: a key with its value, a header, or nothing but a comment. Values
nest at most eighty deep, and a key has at most as many parts.
-/
namespace Errata.Toml

def skipBlanks (s : Text) : Text := s.dropWhile fun c => c == ' ' || c == '\t'

/-- What follows a comment, if there is one and it holds no control character. -/
def skipComment? (s : Text) : Option Text :=
  match s with
  | '#' :: r =>
    match r.dropWhile isPlain with
    | [] => some []
    | rest => if (lineBreak? rest).isSome then some rest else none
  | r => some r

/-- What follows the end of a line, which may be the end of the text. -/
def endLine? (s : Text) : Option Text := do
  match ← skipComment? (skipBlanks s) with
  | [] => some []
  | r => lineBreak? r

/-- Skips blanks, line breaks and comments. -/
def skipLines? (s : Text) : Option Text :=
  let r := skipBlanks s
  match r with
  | '#' :: _ =>
    match skipComment? r with
    | some t => if t.length < s.length then skipLines? t else none
    | none => none
  | _ =>
    match lineBreak? r with
    | some t => if t.length < s.length then skipLines? t else none
    | none => some r
termination_by s.length

def isBareKey (c : Char) : Bool := c.isAlphanum || c == '-' || c == '_'

/-- One part of a key. -/
def keyPart? (s : Text) : Option (Text × Text) :=
  match s with
  | '"' :: r => basic? r
  | '\'' :: r => literal? r
  | s =>
    match s.takeWhile isBareKey with
    | [] => none
    | k => some (k, s.dropWhile isBareKey)

/-- A key of at most `parts` parts: its parts but the last, the last, and what follows it and the
blanks behind it. -/
def keyOf? : Nat → Text → Option (List Text × Text × Text)
  | 0, _ => none
  | parts + 1, s =>
    match keyPart? (skipBlanks s) with
    | none => none
    | some (k, r) =>
      match skipBlanks r with
      | '.' :: t => (keyOf? parts t).map fun (path, last, u) => (k :: path, last, u)
      | r => some ([], k, r)

/-- How many parts a key has and how deep values nest, at most. -/
def nesting : Nat := 80

def key? (s : Text) : Option (List Text × Text × Text) := keyOf? nesting s

/-- The run of characters that writes a scalar. A day and a time of day may have a blank between
them. -/
def scalarRun (s : Text) : Text × Text :=
  let isPart (c : Char) : Bool :=
    c.isAlphanum || c == '-' || c == '_' || c == '+' || c == '.' || c == ':'
  let run := s.takeWhile isPart
  match s.dropWhile isPart with
  | ' ' :: d :: r =>
    if date? run = some [] ∧ d.isDigit then
      (run ++ ' ' :: (d :: r).takeWhile isPart, (d :: r).dropWhile isPart)
    else (run, ' ' :: d :: r)
  | r => (run, r)

mutual

/-- A value that starts right here and nests at most `depth` deep. -/
def value? (depth : Nat) (s : Text) : Option (Toml × Text) :=
  match s with
  | '[' :: r =>
    match depth with
    | 0 => none
    | depth + 1 => (items? depth r).map fun (js, u) => (.array js, u)
  | '{' :: r =>
    match depth with
    | 0 => none
    | depth + 1 => (pairs? depth [] r).map fun (es, u) => (.table (entryValues es), u)
  | '"' :: _ | '\'' :: _ => (string? s).map fun (t, u) => (.string t, u)
  | s =>
    let (run, r) := scalarRun s
    (scalar? run).map fun v => (v, r)
termination_by (depth, 0, 0)

/-- The items of an array up to its closing bracket. -/
def items? (depth : Nat) (s : Text) : Option (List Toml × Text) :=
  match skipLines? s with
  | none => none
  | some (']' :: r) => some ([], r)
  | some r =>
    match value? depth r with
    | none => none
    | some (v, r) =>
      match skipLines? r with
      | some (']' :: t) => some ([v], t)
      | some (',' :: t) =>
        if t.length < s.length then (items? depth t).map fun (vs, u) => (v :: vs, u) else none
      | _ => none
termination_by (depth, 2, s.length)

/-- The pairs of an inline table up to its closing brace, put into a table. Lines may break before
and behind each key, value and mark, though not between the parts of a key. -/
def pairs? (depth : Nat) (es : Entries) (s : Text) : Option (Entries × Text) :=
  match skipLines? s with
  | none => none
  | some ('}' :: r) => some (es, r)
  | some r =>
    match pair? depth es r with
    | none => none
    | some (es, r) =>
      match skipLines? r with
      | some ('}' :: t) => some (es, t)
      | some (',' :: t) => if t.length < s.length then pairs? depth es t else none
      | _ => none
termination_by (depth, 2, s.length)

def pair? (depth : Nat) (es : Entries) (s : Text) : Option (Entries × Text) :=
  match key? s with
  | none => none
  | some (path, last, r) =>
    match skipLines? r with
    | some ('=' :: r) =>
      match skipLines? r with
      | none => none
      | some r =>
        match value? depth r with
        | none => none
        | some (v, r) => (es.assign [] path last v).map fun es => (es, r)
    | _ => none
termination_by (depth, 1, 0)

end

/-- A document as far as it has been read: its tables and the one that keys go to. -/
structure Progress where
  entries : Entries
  table : List Text

/-- One line, and what follows it. -/
def line? (p : Progress) (s : Text) : Option (Progress × Text) := do
  match skipBlanks s with
  | '[' :: '[' :: r =>
    match ← key? r with
    | (path, last, ']' :: ']' :: r) =>
      some (⟨← p.entries.appendTable path last, path ++ [last]⟩, ← endLine? r)
    | _ => none
  | '[' :: r =>
    match ← key? r with
    | (path, last, ']' :: r) =>
      some (⟨← p.entries.openTable path last, path ++ [last]⟩, ← endLine? r)
    | _ => none
  | s =>
    if s.isEmpty ∨ s.head? = some '#' ∨ (lineBreak? s).isSome then some (p, ← endLine? s)
    else
      match ← key? s with
      | (path, last, '=' :: r) =>
        let (v, r) ← value? nesting (skipBlanks r)
        some ({ p with entries := ← p.entries.assign p.table path last v }, ← endLine? r)
      | _ => none

def document? (p : Progress) (s : Text) : Option Progress :=
  if s.isEmpty then some p
  else
    match line? p s with
    | some (p, r) => if r.length < s.length then document? p r else none
    | none => none
termination_by s.length

/-- The table that a text writes; a byte order mark at its start does not count. -/
def read? (s : Text) : Option Toml :=
  let s := if s.head? = some '\ufeff' then s.tail else s
  (document? ⟨[], []⟩ s).map fun p => .table (entryValues p.entries)

end Errata.Toml
