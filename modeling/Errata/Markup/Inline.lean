import Errata.Text.WordCharacter

/-!
# Inline literals

Six forms of inline markup keep their text as it is. Each form is looked for from left to right on
its own, and its spans do not overlap.
-/
namespace Errata.Markup

/-- The characters from `start` up to but not including `stop`. -/
structure Span where
  start : Nat
  stop : Nat
  deriving DecidableEq, Repr

def Span.covers (s : Span) (column : Nat) : Bool := s.start ≤ column && column < s.stop

namespace Inline

/-- A match right here: what it takes up, and where in that the literal lies. -/
structure Hit where
  length : Nat
  span : Span
  positive : 0 < length

def Hit.whole (n : Nat) : Hit := ⟨n + 1, ⟨0, n + 1⟩, Nat.succ_pos n⟩

/-- Tries to match at the start of a text; the flag tells whether that is the start of the line. -/
abbrev Form := Bool → Text → Option Hit

/-- The spans of a form from position `at` on. -/
def spansFrom (form : Form) (start : Nat) (s : Text) : List Span :=
  match s with
  | [] => []
  | c :: r =>
    match form (start == 0) (c :: r) with
    | some hit =>
      ⟨start + hit.span.start, start + hit.span.stop⟩ ::
        spansFrom form (start + hit.length) ((c :: r).drop hit.length)
    | none => spansFrom form (start + 1) r
termination_by s.length
decreasing_by
  · have := hit.positive
    simp only [List.length_drop, List.length_cons]
    omega
  · simp

/-- The number of characters before the first `close` that leaves at least one in between; none if
a line break comes first. -/
def untilClose? (close : Text) : Text → Option Nat
  | [] => none
  | c :: r =>
    if c = '\n' then none
    else if close.isPrefixOf r then some 1
    else (untilClose? close r).map (· + 1)

/-- `mark`, at least one character, and the same mark again. -/
def fenced (mark : Text) : Form := fun _ s =>
  match List.isPrefixOf? mark s with
  | some r => (untilClose? mark r).map fun n => .whole (2 * mark.length + n - 1)
  | none => none

/-- A pass macro: `pass:`, substitution letters, and a text in brackets. -/
def passMacro : Form := fun _ s =>
  match List.isPrefixOf? "pass:".toList s with
  | some r =>
    let letter (c : Char) : Bool := c == ',' || ('a' ≤ c && c ≤ 'z')
    match r.dropWhile letter with
    | '[' :: body =>
      if ']' ∈ body then
        some (.whole (5 + (r.takeWhile letter).length + 1 + (body.takeWhile (· != ']')).length))
      else none
    | _ => none
  | none => none

/-- A code span: text without backticks between two of them. -/
def code : Form := fun _ s =>
  match s with
  | '\x60' :: r =>
    let body := r.takeWhile (· != '\x60')
    if body.isEmpty || body.length == r.length then none else some (.whole (body.length + 1))
  | _ => none

/-- The length of a constrained passthrough that starts right here, and whether it takes up the
character behind it: the text inside has no plus sign and no blank at either end, and no word
character or plus sign follows. -/
def constrainedHere? : Text → Option (Nat × Bool)
  | '+' :: r =>
    let body := r.takeWhile (· != '+')
    match r.dropWhile (· != '+') with
    | _ :: behind =>
      if body.head?.all Text.isBlank || body.getLast?.all Text.isBlank then none
      else match behind with
        | [] => some (body.length + 2, false)
        | c :: _ => if Text.isWord c || c == '+' then none else some (body.length + 2, true)
    | [] => none
  | _ => none

/-- A constrained passthrough: at the start of the line, or behind a character that is neither a
word character nor a plus sign. -/
def constrained : Form := fun atStart s =>
  let here : Option Hit :=
    if atStart then
      match constrainedHere? s with
      | some (n + 1, more) => some ⟨n + 1 + more.toNat, ⟨0, n + 1⟩, by omega⟩
      | _ => none
    else none
  here.or <|
    match s with
    | c :: r =>
      if Text.isWord c || c == '+' then none
      else match constrainedHere? r with
        | some (n, more) => some ⟨1 + n + more.toNat, ⟨1, 1 + n⟩, by omega⟩
        | none => none
    | [] => none

def forms : List Form :=
  [passMacro, fenced "+++", fenced "++", constrained, fenced ['\x60', '\x60'], code]

/-- All inline literals of a line. -/
def spans (line : Text) : List Span := forms.flatMap fun form => spansFrom form 0 line

def isLiteral (line : Text) (column : Nat) : Bool := (spans line).any (·.covers column)

end Inline

end Errata.Markup
