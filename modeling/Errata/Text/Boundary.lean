import Errata.Text.Basic

/-!
# Places counted in bytes

In UTF-8 a character takes one to four bytes, so a place that is counted in bytes may lie within a
character. A text is cut only at a boundary: between two characters, or at one of its ends. A cut
elsewhere has no result.
-/
namespace Errata.Text

def size : Text → Nat
  | [] => 0
  | c :: t => c.utf8Size + size t

/-- The byte at which the character at position `n` starts, or the end of the text if it has none
there. -/
def offset (n : Nat) (t : Text) : Nat := size (t.take n)

/-- Cuts a text in two at byte `n`; none if that is no boundary. -/
def splitAt? (n : Nat) : Text → Option (Text × Text)
  | [] => if n = 0 then some ([], []) else none
  | c :: t =>
    if n = 0 then some ([], c :: t)
    else if c.utf8Size ≤ n then
      (splitAt? (n - c.utf8Size) t).map fun (before, behind) => (c :: before, behind)
    else none

def isBoundary (n : Nat) (t : Text) : Bool := (splitAt? n t).isSome

def upTo? (n : Nat) (t : Text) : Option Text := (splitAt? n t).map Prod.fst

def startingAt? (n : Nat) (t : Text) : Option Text := (splitAt? n t).map Prod.snd

/-- The first boundary from byte `n` on, looked for byte by byte. None if the search would not end,
since behind the text there is no boundary. -/
def roundUp? (n : Nat) (t : Text) : Option Nat :=
  if isBoundary n t then some n
  else if n < size t then roundUp? (n + 1) t
  else none
termination_by size t - n

/-- The byte at which the first occurrence of `needle` starts. -/
def byteOf? (needle t : Text) : Option Nat := (find? needle t).map fun i => offset i t

/-- The byte at which the last occurrence of `needle` starts. -/
def lastByteOf? (needle t : Text) : Option Nat := (findLast? needle t).map fun i => offset i t

/-- Writes `new` over the bytes from `start` up to `stop`. -/
def overwriteBytes? (t : Text) (start stop : Nat) (new : Text) : Option Text := do
  let before ← upTo? start t
  let behind ← startingAt? stop t
  some (before ++ new ++ behind)

end Errata.Text
