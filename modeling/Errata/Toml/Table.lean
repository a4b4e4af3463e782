import Errata.Toml.Value

/-!
# TOML tables under construction

A document builds its tables line by line. A table can be opened once by a header; tables that are
only named on the way to another one can still be opened later, and those that a dotted key has made
can be extended by dotted keys only. A dotted key puts its value into no other table than one that a
dotted key has made. A value, an inline table included, is closed.
-/
namespace Errata.Toml

inductive Node where
  | closed (v : Toml)
  /-- A table; `named` if no header has opened it, `dotted` if a dotted key has made it. -/
  | open_ (named dotted : Bool) (entries : List (Text × Node))
  /-- An array of tables, of which the last one can be extended. -/
  | list (tables : List (List (Text × Node)))

abbrev Entries := List (Text × Node)

namespace Entries

/-- Changes what stands under a key, which may be nothing. -/
def modify (key : Text) (f : Option Node → Option Node) : Entries → Option Entries
  | [] => (f none).map fun n => [(key, n)]
  | (k, n) :: es =>
    if k = key then (f (some n)).map fun n => (k, n) :: es
    else (modify key f es).map ((k, n) :: ·)

/-- Changes the table at the end of a path and makes the tables on the way. The path of a dotted
key ends in a table that a dotted key has made. -/
def within (dotted : Bool) (path : List Text) (f : Entries → Option Entries) (es : Entries) :
    Option Entries :=
  match path with
  | [] => f es
  | key :: path =>
    modify key (fun
      | none => (within dotted path f []).map (.open_ true dotted)
      | some (.open_ named made inner) =>
        if dotted && (!named || !made && path.isEmpty) then none
        else (within dotted path f inner).map (.open_ named made)
      | some (.list tables) =>
        match tables.getLast? with
        | some last =>
          if dotted && path.isEmpty then none
          else (within dotted path f last).map fun t => .list (tables.dropLast ++ [t])
        | none => none
      | some (.closed _) => none) es

/-- Opens the table of a header. -/
def openTable (path : List Text) (key : Text) (es : Entries) : Option Entries :=
  within false path (modify key fun
    | none => some (.open_ false false [])
    | some (.open_ true false inner) => some (.open_ false false inner)
    | _ => none) es

/-- Opens one more table of an array of tables. -/
def appendTable (path : List Text) (key : Text) (es : Entries) : Option Entries :=
  within false path (modify key fun
    | none => some (.list [[]])
    | some (.list tables) => some (.list (tables ++ [[]]))
    | _ => none) es

/-- Gives a key of the table at `table` a value; the key may be dotted. -/
def assign (table path : List Text) (key : Text) (v : Toml) (es : Entries) : Option Entries :=
  within false table (within true path (modify key fun
    | none => some (.closed v)
    | some _ => none)) es

end Entries

mutual

def Node.value : Node → Toml
  | .closed v => v
  | .open_ _ _ entries => .table (entryValues entries)
  | .list tables => .array (tableValues tables)

def entryValues : List (Text × Node) → List (Text × Toml)
  | [] => []
  | (k, n) :: es => (k, n.value) :: entryValues es

def tableValues : List (List (Text × Node)) → List Toml
  | [] => []
  | t :: ts => .table (entryValues t) :: tableValues ts

end

end Errata.Toml
