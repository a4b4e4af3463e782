import Errata.Json.Value

/-!
# Records in JSON

A record is written as an object and read from an object or from the list of its fields in
declaration order. Reading ignores members that are not fields and refuses a field that is given
twice; a list may end early, so that its last fields are absent, but not go on beyond the last
field.
-/
namespace Errata.Json

/-- The values of the fields with these names, absent ones as `none`. -/
def fields? (names : List Text) : Json → Option (List (Option Json))
  | .object members =>
    if names.all fun name => (members.filter fun m => m.1 == name).length ≤ 1 then
      some (names.map fun name => (members.find? fun m => m.1 == name).map (·.2))
    else none
  | .array items =>
    if items.length ≤ names.length then
      some (items.map some ++ List.replicate (names.length - items.length) none)
    else none
  | _ => none

/-- A field that has to be there. -/
def required {α : Type} (read : Json → Option α) (field : Option Json) : Option α := field.bind read

/-- A field that may be absent or null. -/
def optional {α : Type} (read : Json → Option α) : Option Json → Option (Option α)
  | none | some .null => some none
  | some j => (read j).map some

/-- A field that has a value of its own where it is absent. -/
def defaulting {α : Type} (absent : α) (read : Json → Option α) : Option Json → Option α
  | none => some absent
  | some j => read j

def text? : Json → Option Text
  | .string t => some t
  | _ => none

def bool? : Json → Option Bool
  | .bool b => some b
  | _ => none

/-- A natural number that fits 64 bits, written as an integer. -/
def nat? : Json → Option Nat
  | .number (.natural n) => if n < UInt64.size then some n else none
  | _ => none

def double? : Json → Option Float
  | .number (.natural n) => some (Float.ofNat n)
  | .number (.negative n) => some (-Float.ofNat n)
  | .number (.double x) => some x
  | _ => none

def list? {α : Type} (read : Json → Option α) : Json → Option (List α)
  | .array items => items.mapM read
  | _ => none

/-- A word that stands for one of `values`: a string, or an object whose only member has that name
and the value null. -/
def choice? {α : Type} (values : List α) (name : α → Text) : Json → Option α
  | .string t => values.find? fun v => name v == t
  | .object [(t, .null)] => values.find? fun v => name v == t
  | _ => none

/-- An object of the fields that have a value. -/
def record (fields : List (Text × Option Json)) : Json :=
  .object (fields.filterMap fun f => f.2.map fun j => (f.1, j))

def nat (n : Nat) : Json := .number (.natural n)

end Errata.Json
