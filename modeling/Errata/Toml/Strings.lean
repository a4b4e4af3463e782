import Errata.Text.Basic

/-!
# TOML strings

Strings stand between double quotes, with escapes, or between single quotes, without any; three
quotes at each end let a string go over several lines. A reader gives the string and what follows
its closing quote.
-/
namespace Errata.Toml

/-- May stand in a string or comment as it is. -/
def isPlain (c : Char) : Bool := c == '\t' || (0x20 ≤ c.toNat && c.toNat != 0x7F)

/-- The character with a code point. -/
def scalarValue? (n : Nat) : Option Char :=
  if n < 0xD800 ∨ (0xDFFF < n ∧ n < 0x110000) then some (Char.ofNat n) else none

/-- The character of an escape whose backslash has been read, and how many characters it takes. -/
def escape? (s : Text) : Option (Char × Nat) :=
  let coded (digits : Nat) (r : Text) : Option (Char × Nat) :=
    if r.length < digits then none
    else ((Text.hexValue? (r.take digits)).bind scalarValue?).map fun c => (c, digits + 1)
  match s with
  | 'b' :: _ => some ('\x08', 1)
  | 't' :: _ => some ('\t', 1)
  | 'n' :: _ => some ('\n', 1)
  | 'f' :: _ => some ('\x0c', 1)
  | 'r' :: _ => some ('\r', 1)
  | 'e' :: _ => some ('\x1b', 1)
  | '"' :: _ => some ('"', 1)
  | '\\' :: _ => some ('\\', 1)
  | 'x' :: r => coded 2 r
  | 'u' :: r => coded 4 r
  | 'U' :: r => coded 8 r
  | _ => none

def basic? (s : Text) : Option (Text × Text) :=
  match s with
  | [] => none
  | c :: r =>
    if c = '"' then some ([], r)
    else if c = '\\' then
      match escape? r with
      | some (e, n) => (basic? (r.drop n)).map fun (t, u) => (e :: t, u)
      | none => none
    else if isPlain c then (basic? r).map fun (t, u) => (c :: t, u)
    else none
termination_by s.length
decreasing_by all_goals (simp only [List.length_drop, List.length_cons]; omega)

def literal? (s : Text) : Option (Text × Text) :=
  match s with
  | [] => none
  | c :: r =>
    if c = '\'' then some ([], r)
    else if isPlain c then (literal? r).map fun (t, u) => (c :: t, u)
    else none

/-- Quotes that end a string of several lines: three, after at most two that belong to it. -/
def closing? (quote : Char) (s : Text) : Option (Text × Text) :=
  let quotes := s.takeWhile (· == quote)
  if quotes.length < 3 then none
  else
    let own := min 2 (quotes.length - 3)
    some (List.replicate own quote, s.drop (own + 3))

/-- Skips blanks and line breaks. -/
def skipBreaks : Text → Text
  | ' ' :: r | '\t' :: r | '\n' :: r | '\r' :: '\n' :: r => skipBreaks r
  | r => r

theorem skipBreaks_length_le (s : Text) : (skipBreaks s).length ≤ s.length := by
  fun_induction skipBreaks s with
  | case1 r ih | case2 r ih | case3 r ih => exact Nat.le_succ_of_le ih
  | case4 r ih => exact Nat.le_succ_of_le (Nat.le_succ_of_le ih)
  | case5 r => exact Nat.le_refl _

/-- A backslash at the end of a line takes out the line break and all blanks and line breaks after
it: what is left of the text then. -/
def joined? (s : Text) : Option { r : Text // r.length ≤ s.length } :=
  match s.dropWhile fun c => c == ' ' || c == '\t' with
  | '\n' :: _ | '\r' :: '\n' :: _ => some ⟨skipBreaks s, skipBreaks_length_le s⟩
  | _ => none

def lineBreak? (s : Text) : Option Text :=
  match s with
  | '\n' :: r => some r
  | '\r' :: '\n' :: r => some r
  | _ => none

/-- The rest of a string of several lines. -/
def multiLine? (quote : Char) (escapes : Bool) (s : Text) : Option (Text × Text) :=
  match closing? quote s with
  | some (own, r) => some (own, r)
  | none =>
    match s with
    | [] => none
    | c :: r =>
      if c = '\\' ∧ escapes then
        match joined? r with
        | some ⟨u, _⟩ => multiLine? quote escapes u
        | none =>
          match escape? r with
          | some (e, n) => (multiLine? quote escapes (r.drop n)).map fun (t, u) => (e :: t, u)
          | none => none
      else if isPlain c ∨ c = '\n' ∨ (c = '\r' ∧ r.head? = some '\n') then
        (multiLine? quote escapes r).map fun (t, u) => (c :: t, u)
      else none
termination_by s.length
decreasing_by all_goals (simp only [List.length_drop, List.length_cons]; omega)

/-- A string of any form. A line break right behind three opening quotes does not count. -/
def string? (s : Text) : Option (Text × Text) :=
  match s with
  | '"' :: '"' :: '"' :: r => multiLine? '"' true ((lineBreak? r).getD r)
  | '\'' :: '\'' :: '\'' :: r => multiLine? '\'' false ((lineBreak? r).getD r)
  | '"' :: r => basic? r
  | '\'' :: r => literal? r
  | _ => none

end Errata.Toml
