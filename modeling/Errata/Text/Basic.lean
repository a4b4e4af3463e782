/-!
# Texts

A text is the list of its characters, so a position in a text counts characters. The module holds
the cuts and searches that the rest of the library is written in: trimming, splitting at a
character, and finding the occurrences of one text in another.
-/
namespace Errata

/-- A text, as the list of its characters. -/
abbrev Text := List Char

instance : Coe String Text := ⟨String.toList⟩

namespace Text

/-- Unicode `White_Space`. -/
def isBlank (c : Char) : Bool :=
  let n := c.toNat
  (9 ≤ n && n ≤ 13) || n == 0x20 || n == 0x85 || n == 0xA0 || n == 0x1680 ||
    (0x2000 ≤ n && n ≤ 0x200A) || n == 0x2028 || n == 0x2029 || n == 0x202F ||
    n == 0x205F || n == 0x3000

def blank (t : Text) : Bool := t.all isBlank

def trimStart (t : Text) : Text := t.dropWhile isBlank

/-- Drops the longest tail whose characters all satisfy `p`. -/
def dropEndWhile (p : Char → Bool) (t : Text) : Text := (t.reverse.dropWhile p).reverse

def trimEnd (t : Text) : Text := dropEndWhile isBlank t

def trim (t : Text) : Text := trimEnd (trimStart t)

/-- What follows the last `sep`, or the whole text where there is none. -/
def afterLast (sep : Char) (t : Text) : Text := (t.reverse.takeWhile (· != sep)).reverse

/-- ASCII letters in lower case, everything else as it is. -/
def lower (t : Text) : Text := t.map Char.toLower

/-- ASCII letters in upper case, everything else as it is. -/
def upper (t : Text) : Text := t.map Char.toUpper

/-- The first position at which `needle` stands. -/
def find? (needle : Text) : Text → Option Nat
  | [] => if needle.isEmpty then some 0 else none
  | c :: r => if needle.isPrefixOf (c :: r) then some 0 else (find? needle r).map (· + 1)

/-- The last position at which `needle` stands. -/
def findLast? (needle : Text) : Text → Option Nat
  | [] => if needle.isEmpty then some 0 else none
  | c :: r =>
    match findLast? needle r with
    | some i => some (i + 1)
    | none => if needle.isPrefixOf (c :: r) then some 0 else none

def contains (needle t : Text) : Bool := (find? needle t).isSome

/-- The occurrence of `needle` that a report at `column` means: the first one that starts there or
later, else the last one on the line. -/
def findNear? (needle : Text) (column : Nat) (t : Text) : Option Nat :=
  ((find? needle (t.drop column)).map (column + ·)).or (findLast? needle t)

/-- Writes `new` over the `length` characters from `start` on. -/
def overwrite (t : Text) (start length : Nat) (new : Text) : Text :=
  t.take start ++ new ++ t.drop (start + length)

def ofNat (n : Nat) : Text := Nat.toDigits 10 n

def digitsValue (t : Text) : Nat := t.foldl (fun n c => 10 * n + (c.toNat - '0'.toNat)) 0

def hexDigit? (c : Char) : Option Nat :=
  if '0' ≤ c ∧ c ≤ '9' then some (c.toNat - '0'.toNat)
  else if 'a' ≤ c ∧ c ≤ 'f' then some (c.toNat - 'a'.toNat + 10)
  else if 'A' ≤ c ∧ c ≤ 'F' then some (c.toNat - 'A'.toNat + 10)
  else none

def hexValue? (t : Text) : Option Nat :=
  t.foldlM (fun n c => (hexDigit? c).map fun d => 16 * n + d) 0

/-- Fills up with blanks to `width` characters. -/
def padRight (width : Nat) (t : Text) : Text := t ++ List.replicate (width - t.length) ' '

def padded (width n : Nat) : Text :=
  let digits := ofNat n
  List.replicate (width - digits.length) '0' ++ digits

end Text

end Errata
