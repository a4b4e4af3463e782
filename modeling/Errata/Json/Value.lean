import Errata.Text.Basic

/-!
# JSON values

Numbers keep how they were written: one written as an integer that fits a machine word is an
integer, any other is a double. Objects keep their members in order; `Json.members` lists them by
key, the last one of each key. A text may follow the grammar and yet write what no value can hold;
such a part is `Json.unfit`, and a value without such parts is sound.
-/
namespace Errata

inductive Json.Number where
  | natural (n : Nat)
  /-- The integer `-n`. -/
  | negative (n : Nat)
  | double (x : Float)

inductive Json where
  | null
  | bool (b : Bool)
  | number (n : Json.Number)
  | string (t : Text)
  | array (items : List Json)
  | object (members : List (Text × Json))
  /-- A number beyond the doubles, half of a surrogate pair, or what nests too deep. -/
  | unfit

namespace Json

instance : Inhabited Json := ⟨.null⟩

/-- What kind of value it is, for messages. -/
def kind : Json → Text
  | .null => "null"
  | .bool _ => "a boolean"
  | .number _ => "a number"
  | .string _ => "a string"
  | .array _ => "an array"
  | .object _ => "an object"
  | .unfit => "an unfit value"

/-- Puts a member where it belongs among members sorted by key, over one of the same key. -/
def place (key : Text) (value : β) : List (Text × β) → List (Text × β)
  | [] => [(key, value)]
  | m :: ms =>
    if key < m.1 then (key, value) :: m :: ms
    else if m.1 < key then m :: place key value ms
    else (key, value) :: ms

/-- Members by key, the last one of each key. -/
def sortMembers (members : List (Text × β)) : List (Text × β) :=
  members.foldl (fun sorted m => place m.1 m.2 sorted) []

mutual

/-- The value with the members of every object by key, the last one of each key. -/
def canonical : Json → Json
  | .array items => .array (canonicalItems items)
  | .object members => .object (sortMembers (canonicalMembers members))
  | j => j

def canonicalItems : List Json → List Json
  | [] => []
  | j :: js => canonical j :: canonicalItems js

def canonicalMembers : List (Text × Json) → List (Text × Json)
  | [] => []
  | (k, j) :: ms => (k, canonical j) :: canonicalMembers ms

end

mutual

/-- No part of the value is unfit. -/
def isSound : Json → Bool
  | .unfit => false
  | .array items => areSound items
  | .object members => haveSound members
  | _ => true

def areSound : List Json → Bool
  | [] => true
  | j :: js => isSound j && areSound js

def haveSound : List (Text × Json) → Bool
  | [] => true
  | (_, j) :: ms => isSound j && haveSound ms

end

/-- The value of the last member with this key. -/
def field? (key : Text) : Json → Option Json
  | .object members => (members.reverse.find? (·.1 = key)).map (·.2)
  | _ => none

end Json

end Errata
