/-!
# Entries sorted by key

Entries with different keys, listed by key. What stands under a key is changed where it is, and a
key that is new comes where it belongs.
-/
namespace Errata.Sorted

variable {κ α β γ : Type} [LT κ] [DecidableLT κ]

/-- Changes what stands under a key, `none` if nothing does. -/
def alter (k : κ) (change : Option α → α) : List (κ × α) → List (κ × α)
  | [] => [(k, change none)]
  | e :: es =>
    if k < e.1 then (k, change none) :: e :: es
    else if e.1 < k then e :: alter k change es
    else (e.1, change (some e.2)) :: es

/-- Gathers what is said of each key, one element after the other. -/
def gather (key : β → κ) (change : β → Option α → α) (xs : List β) : List (κ × α) :=
  xs.foldl (fun entries x => alter (key x) (change x) entries) []

/-- How many elements have each key. -/
def countBy (key : β → κ) : List β → List (κ × Nat) := gather key fun _ n => n.getD 0 + 1

/-- What the elements of each key have, in their order. -/
def collectBy (key : β → κ) (item : β → γ) : List β → List (κ × List γ) :=
  gather key fun x items => items.getD [] ++ [item x]

end Errata.Sorted
