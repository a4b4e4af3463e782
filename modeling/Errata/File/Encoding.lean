import Errata.Text.Basic

/-!
# Text encodings

Bytes are text unless one of them is zero: UTF-8 where they are valid UTF-8, and otherwise Latin-1,
in which every byte is the character of its number.
-/
namespace Errata

inductive Encoding where
  | utf8
  | latin1
  deriving DecidableEq, Repr

namespace Encoding

def name : Encoding → Text
  | .utf8 => "utf-8"
  | .latin1 => "latin-1"

/-- The text that bytes hold, and in which encoding; none for binary content. -/
def decode? (bytes : ByteArray) : Option (Text × Encoding) :=
  if bytes.data.toList.contains 0 then none
  else match bytes.utf8Decode? with
    | some cs => some (cs.toList, .utf8)
    | none => some (bytes.data.toList.map fun b => Char.ofNat b.toNat, .latin1)

def latin1Byte? (c : Char) : Option UInt8 :=
  if c.toNat < 256 then some (UInt8.ofNat c.toNat) else none

/-- The bytes of a text; none if a character has no place in the encoding. -/
def encode? (e : Encoding) (t : Text) : Option ByteArray :=
  match e with
  | .utf8 => some (String.ofList t).toByteArray
  | .latin1 => (t.mapM latin1Byte?).map fun bytes => ⟨bytes.toArray⟩

end Encoding

end Errata
