import Errata.Text.Basic

/-!
# UTF-8

A decoder that says where bytes stop being UTF-8. A faulty sequence is as long as it could still
have been the start of a character; the lossy decoder puts one replacement character for each.
-/
namespace Errata.Utf8

inductive Head where
  | char (c : Char) (length : Nat)
  /-- No character, and the number of bytes that belong together in it. -/
  | faulty (length : Nat)
  /-- The bytes end within a character. -/
  | cut

/-- What the lead byte of a sequence says: how many bytes follow, between which bounds the first of
them lies, and the bits that the lead byte carries. -/
def lead? (b : UInt8) : Option (Nat × Nat × Nat × Nat) :=
  let n := b.toNat
  if 0xC2 ≤ n ∧ n ≤ 0xDF then some (1, 0x80, 0xBF, n - 0xC0)
  else if n = 0xE0 then some (2, 0xA0, 0xBF, 0)
  else if n = 0xED then some (2, 0x80, 0x9F, 0xD)
  else if 0xE1 ≤ n ∧ n ≤ 0xEF then some (2, 0x80, 0xBF, n - 0xE0)
  else if n = 0xF0 then some (3, 0x90, 0xBF, 0)
  else if 0xF1 ≤ n ∧ n ≤ 0xF3 then some (3, 0x80, 0xBF, n - 0xF0)
  else if n = 0xF4 then some (3, 0x80, 0x8F, 4)
  else none

/-- Reads `more` continuation bytes, the first of them between `low` and `high`; `length` bytes have
been read and carry `bits`. -/
def tail (more low high bits length : Nat) (s : List UInt8) : Head :=
  match more, s with
  | 0, _ => .char (Char.ofNat bits) length
  | _ + 1, [] => .cut
  | more + 1, b :: r =>
    if low ≤ b.toNat ∧ b.toNat ≤ high then
      tail more 0x80 0xBF (64 * bits + (b.toNat - 0x80)) (length + 1) r
    else .faulty length

def head (b : UInt8) (r : List UInt8) : Head :=
  if b.toNat < 0x80 then .char (Char.ofNat b.toNat) 1
  else match lead? b with
    | some (more, low, high, bits) => tail more low high bits 1 r
    | none => .faulty 1

/-- Where bytes are not UTF-8: the number of good bytes before, and the length of the faulty
sequence unless the bytes end within it. -/
structure Fault where
  index : Nat
  length : Option Nat
  deriving DecidableEq, Repr

def Fault.message (f : Fault) : Text :=
  match f.length with
  | some n =>
    "invalid utf-8 sequence of " ++ Text.ofNat n ++ " bytes from index " ++ Text.ofNat f.index
  | none => "incomplete utf-8 byte sequence from index " ++ Text.ofNat f.index

/-- Decodes from position `index` on; `skip` bytes belong to the character before. -/
def decodeFrom (index skip : Nat) : List UInt8 → Except Fault Text
  | [] => .ok []
  | b :: r =>
    match skip with
    | skip + 1 => decodeFrom (index + 1) skip r
    | 0 =>
      match head b r with
      | .char c n => (decodeFrom (index + 1) (n - 1) r).map (c :: ·)
      | .faulty n => .error ⟨index, some n⟩
      | .cut => .error ⟨index, none⟩

def decode (bytes : List UInt8) : Except Fault Text := decodeFrom 0 0 bytes

def decodeLossyFrom (skip : Nat) : List UInt8 → Text
  | [] => []
  | b :: r =>
    match skip with
    | skip + 1 => decodeLossyFrom skip r
    | 0 =>
      match head b r with
      | .char c n => c :: decodeLossyFrom (n - 1) r
      | .faulty n => '\ufffd' :: decodeLossyFrom (n - 1) r
      | .cut => ['\ufffd']

/-- Decodes bytes with a replacement character for every faulty sequence. -/
def decodeLossy (bytes : List UInt8) : Text := decodeLossyFrom 0 bytes

end Errata.Utf8
