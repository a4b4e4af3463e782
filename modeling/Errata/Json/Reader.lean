import Errata.Json.Value
import Errata.Decimal.Reading

/-!
# Reading JSON

The grammar is the strict one, where blanks are space, tab, line feed and carriage return. What a
text of the grammar writes can still be unfit: a surrogate escape needs its partner, a number must
fit a double, and values nest less than 128 deep. `Json.scan?` leaves it open whether that matters,
`Json.read?` wants a sound value. Every step returns what is left of the text together with a proof
that it is shorter.
-/
namespace Errata.Json

/-- What is left of `s` after something was read from it. -/
abbrev Rest (s : Text) := { r : Text // r.length < s.length }

/-- What is left of a text after its first character. -/
def Rest.tail (c : Char) (s : Text) : Rest (c :: s) := ⟨s, Nat.lt_succ_self _⟩

/-- What is left of a text is left of it also with more characters in front. -/
def Rest.behind {s : Text} (cs : Text) (x : Rest s) : Rest (cs ++ s) :=
  ⟨x.1, List.length_append ▸ Nat.lt_add_left cs.length x.2⟩

def isSpace (c : Char) : Bool := c == ' ' || c == '\t' || c == '\n' || c == '\r'

def skip (s : Text) : Text := s.dropWhile isSpace

theorem skip_length_le (s : Text) : (skip s).length ≤ s.length :=
  (List.dropWhile_sublist _).length_le

theorem length_lt_of_skip {s t : Text} {c : Char} (h : skip s = c :: t) : t.length < s.length := by
  have := skip_length_le s
  rw [h] at this
  simp only [List.length_cons] at this
  omega

/-- The character that `\x` stands for, where `x` is not `u`. -/
def escape? : Char → Option Char
  | '"' => some '"'
  | '\\' => some '\\'
  | '/' => some '/'
  | 'b' => some '\x08'
  | 'f' => some '\x0c'
  | 'n' => some '\n'
  | 'r' => some '\r'
  | 't' => some '\t'
  | _ => none

/-- A piece of a string: a character, or a word of UTF-16 in hexadecimal digits. -/
inductive Piece where
  | char (c : Char)
  | word (n : Nat)

/-- The pieces of a string whose opening quote has been read. -/
def pieces (s : Text) : Option (List Piece × Rest s) :=
  match s with
  | '"' :: r => some ([], .tail '"' r)
  | '\\' :: 'u' :: a :: b :: c :: d :: r => do
    let n ← Text.hexValue? [a, b, c, d]
    let (ps, u) ← pieces r
    some (.word n :: ps, .behind ['\\', 'u', a, b, c, d] u)
  | '\\' :: c :: r => do
    let e ← escape? c
    let (ps, u) ← pieces r
    some (.char e :: ps, .behind ['\\', c] u)
  | c :: r =>
    if c = '\\' ∨ c.toNat < 0x20 then none
    else do
      let (ps, u) ← pieces r
      some (.char c :: ps, .behind [c] u)
  | [] => none
termination_by s.length

/-- The text of the pieces. The first half of a surrogate pair needs the second one right behind
it. -/
def textOf? : List Piece → Option Text
  | [] => some []
  | .char c :: ps => (textOf? ps).map (c :: ·)
  | .word n :: ps =>
    if 0xD800 ≤ n ∧ n < 0xDC00 then
      match ps with
      | .word m :: ps =>
        if 0xDC00 ≤ m ∧ m < 0xE000 then
          (textOf? ps).map (Char.ofNat (0x10000 + (n - 0xD800) * 0x400 + (m - 0xDC00)) :: ·)
        else none
      | _ => none
    else if 0xDC00 ≤ n ∧ n < 0xE000 then none
    else (textOf? ps).map (Char.ofNat n :: ·)

def digits (s : Text) : Text × { r : Text // r.length ≤ s.length } :=
  (s.takeWhile Char.isDigit, ⟨s.dropWhile Char.isDigit, (List.dropWhile_sublist _).length_le⟩)

/-- The exponent of a number, zero if there is none. -/
def exponentPart (s : Text) : Option (Option Int × { r : Text // r.length ≤ s.length }) :=
  match s with
  | 'e' :: r | 'E' :: r =>
    let (negative, t) : Bool × { t : Text // t.length ≤ r.length } :=
      match r with
      | '+' :: t => (false, ⟨t, by simp⟩)
      | '-' :: t => (true, ⟨t, by simp⟩)
      | t => (false, ⟨t, Nat.le_refl _⟩)
    match digits t.1 with
    | ([], _) => none
    | (ds, ⟨u, h⟩) =>
      let n := Int.ofNat (Text.digitsValue ds)
      some (some (if negative then -n else n),
        ⟨u, by have := t.2; simp only [List.length_cons]; omega⟩)
  | r => some (none, ⟨r, Nat.le_refl _⟩)

/-- The fraction digits of a number, if it has a point. -/
def fractionPart (s : Text) : Option (Option Text × { r : Text // r.length ≤ s.length }) :=
  match s with
  | '.' :: r =>
    match digits r with
    | ([], _) => none
    | (ds, ⟨u, h⟩) => some (some ds, ⟨u, by simp only [List.length_cons]; omega⟩)
  | r => some (none, ⟨r, Nat.le_refl _⟩)

/-- The value of a numeral, if it fits a double. -/
def Number.ofParts? (negative : Bool) (whole : Text) (fraction : Option Text)
    (exponent : Option Int) : Option Number :=
  let n := Text.digitsValue whole
  let double := (Decimal.toDouble? negative whole (fraction.getD []) (exponent.getD 0)).map .double
  if fraction.isSome || exponent.isSome then double
  else if negative then if n = 0 ∨ 0x8000000000000000 < n then double else some (.negative n)
  else if n < UInt64.size then some (.natural n)
  else double

def numberBody (negative : Bool) (s : Text) : Option (Json × Rest s) :=
  match h : digits s with
  | ([], _) => none
  | (d :: ds, ⟨r, _⟩) =>
    if d = '0' ∧ ds ≠ [] then none
    else do
      let (fraction, ⟨t, ht⟩) ← fractionPart r
      let (exponent, ⟨u, hu⟩) ← exponentPart t
      let n := Number.ofParts? negative (d :: ds) fraction exponent
      some (n.elim .unfit .number, ⟨u, by
        simp only [digits, Prod.mk.injEq, Subtype.mk.injEq] at h
        have := List.takeWhile_append_dropWhile (p := Char.isDigit) (l := s)
        rw [h.1, h.2] at this
        rw [← this]
        simp only [List.length_append, List.length_cons]
        omega⟩)

/-- An array or object where there may be `depth` more levels. -/
def nested (depth : Nat) (j : Json) : Json := if depth = 0 then .unfit else j

mutual

/-- A value that starts right here and is fit as far as it nests at most `depth` deep. -/
def value (depth : Nat) (s : Text) : Option (Json × Rest s) :=
  match s with
  | 'n' :: 'u' :: 'l' :: 'l' :: r => some (.null, .behind ['n', 'u', 'l'] (.tail 'l' r))
  | 't' :: 'r' :: 'u' :: 'e' :: r => some (.bool true, .behind ['t', 'r', 'u'] (.tail 'e' r))
  | 'f' :: 'a' :: 'l' :: 's' :: 'e' :: r =>
    some (.bool false, .behind ['f', 'a', 'l', 's'] (.tail 'e' r))
  | '"' :: r => do
    let (ps, u) ← pieces r
    some ((textOf? ps).elim .unfit .string, .behind ['"'] u)
  | '[' :: r =>
    match h : skip r with
    | ']' :: t => some (nested depth (.array []), ⟨t, Nat.lt_succ_of_lt (length_lt_of_skip h)⟩)
    | _ => do
      let (items, u) ← elements (depth - 1) r
      some (nested depth (.array items), .behind ['['] u)
  | '{' :: r =>
    match h : skip r with
    | '}' :: t => some (nested depth (.object []), ⟨t, Nat.lt_succ_of_lt (length_lt_of_skip h)⟩)
    | _ => do
      let (members, u) ← memberList (depth - 1) r
      some (nested depth (members.elim .unfit .object), .behind ['{'] u)
  | '-' :: r => do
    let (j, u) ← numberBody true r
    some (j, .behind ['-'] u)
  | s => numberBody false s
termination_by 2 * s.length

def elements (depth : Nat) (s : Text) : Option (List Json × Rest s) := do
  have hs := skip_length_le s
  let (j, ⟨r, hr⟩) ← value depth (skip s)
  match h : skip r with
  | ']' :: t => some ([j], ⟨t, by have := length_lt_of_skip h; omega⟩)
  | ',' :: t =>
    have := length_lt_of_skip h
    let (js, ⟨u, hu⟩) ← elements depth t
    some (j :: js, ⟨u, by omega⟩)
  | _ => none
termination_by 2 * s.length + 1

/-- The members of an object up to its closing brace; none if one of the keys is no text. -/
def memberList (depth : Nat) (s : Text) : Option (Option (List (Text × Json)) × Rest s) :=
  match h₀ : skip s with
  | '"' :: r => do
    have := length_lt_of_skip h₀
    let (ps, ⟨r₁, h₁⟩) ← pieces r
    match h₂ : skip r₁ with
    | ':' :: r₂ =>
      have := length_lt_of_skip h₂
      have := skip_length_le r₂
      let (j, ⟨r₃, h₃⟩) ← value depth (skip r₂)
      let member := (textOf? ps).map fun key => (key, j)
      match h₄ : skip r₃ with
      | '}' :: t =>
        some (member.map fun m => [m], ⟨t, by have := length_lt_of_skip h₄; omega⟩)
      | ',' :: t =>
        have := length_lt_of_skip h₄
        let (members, ⟨u, hu⟩) ← memberList depth t
        some (member.bind fun m => members.map (m :: ·), ⟨u, by omega⟩)
      | _ => none
    | _ => none
  | _ => none
termination_by 2 * s.length + 1

end

/-- The value that a whole text writes, with its unfit parts. Members of objects stay as they are
written. -/
def scan? (s : Text) : Option Json := do
  let (j, ⟨r, _⟩) ← value 127 (skip s)
  if skip r = [] then some j else none

/-- The sound value that a whole text writes. -/
def read? (s : Text) : Option Json := (scan? s).filter isSound

end Errata.Json
