import Errata.Text.Basic

/-!
# TOML values

Numbers with a fraction and times keep their text: no setting is read from one. A document may write
a number that is too large to be held; such a part of it is `Toml.unfit`, and a value without such
parts is sound.
-/
namespace Errata

inductive Toml where
  | string (t : Text)
  | integer (n : Int)
  | float (t : Text)
  | boolean (b : Bool)
  | time (t : Text)
  | array (items : List Toml)
  | table (entries : List (Text × Toml))
  /-- An integer that does not fit 128 bits, or a number that does not fit a double. -/
  | unfit

namespace Toml

instance : Inhabited Toml := ⟨.boolean false⟩

/-- The value under a key of a table. -/
def get? (key : Text) : Toml → Option Toml
  | .table entries => (entries.find? (·.1 = key)).map (·.2)
  | _ => none

mutual

def isSound : Toml → Bool
  | .unfit => false
  | .array items => areSound items
  | .table entries => haveSound entries
  | _ => true

def areSound : List Toml → Bool
  | [] => true
  | v :: vs => isSound v && areSound vs

def haveSound : List (Text × Toml) → Bool
  | [] => true
  | (_, v) :: es => isSound v && haveSound es

end

end Toml

end Errata
