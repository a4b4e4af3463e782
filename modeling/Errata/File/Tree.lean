import Errata.File.Error

/-!
# File trees

The files and directories that a run works on, by their place below the root. A path is followed
one name at a time: every name on the way has to be a directory, and `..` goes back from where the
path has led so far.

New names are drawn, and which ones is not up to the program. A tree comes with the suffixes that
its draws give, and any suffixes will do.
-/
namespace Errata

/-- A place in a tree: the names from the root on. -/
abbrev Location := List Text

inductive Entry where
  | file (content : ByteArray)
  | directory

instance : DecidableEq Entry
  | .file a, .file b =>
    if h : a.data = b.data then .isTrue (by cases a; cases b; cases h; rfl)
    else .isFalse fun e => h (by cases e; rfl)
  | .directory, .directory => .isTrue rfl
  | .file _, .directory | .directory, .file _ => .isFalse nofun

/-- Six letters or digits, by which one new name differs from another. -/
structure Suffix where
  text : Text
  plain : text.length = 6 ∧ ∀ c ∈ text, c.isAlphanum

namespace Suffix

/-- The last `k` digits of a number in letters, in front of a text. -/
def letters : Nat → Nat → Text → Text
  | 0, _, t => t
  | k + 1, n, t => letters k (n / 26) (Char.ofNat ('a'.toNat + n % 26) :: t)

theorem length_letters (k n : Nat) (t : Text) : (letters k n t).length = k + t.length := by
  induction k generalizing n t with
  | zero => simp [letters]
  | succ k ih => rw [letters, ih, List.length_cons]; omega

theorem isAlphanum_letters {k n : Nat} {t : Text} (h : ∀ c ∈ t, c.isAlphanum) :
    ∀ c ∈ letters k n t, c.isAlphanum := by
  have hletter : ∀ m < 26, (Char.ofNat ('a'.toNat + m)).isAlphanum := by decide
  induction k generalizing n t with
  | zero => exact h
  | succ k ih => exact ih (List.forall_mem_cons.mpr ⟨hletter _ (Nat.mod_lt n (by decide)), h⟩)

def ofNat (n : Nat) : Suffix := ⟨letters 6 n [], length_letters 6 n [], isAlphanum_letters nofun⟩

end Suffix

structure FileTree where
  entries : List (Location × Entry)
  /-- Where relative paths start. -/
  current : Location
  /-- Where new directories go that nobody asks to have elsewhere. -/
  temporary : Path
  /-- What the draws of a new name give, one after another. -/
  drawn : Nat → Suffix := Suffix.ofNat

namespace FileTree

/-- The root is always a directory. -/
def get? (t : FileTree) (l : Location) : Option Entry :=
  if l = [] then some .directory else (t.entries.find? (·.1 = l)).map (·.2)

/-- Puts an entry at a place, over the one that is there. -/
def put (t : FileTree) (l : Location) (e : Entry) : FileTree :=
  { t with entries := (l, e) :: t.entries.filter (·.1 ≠ l) }

def erase (t : FileTree) (l : Location) : FileTree :=
  { t with entries := t.entries.filter (·.1 ≠ l) }

theorem get?_put_self (t : FileTree) (l : Location) (e : Entry) (h : l ≠ []) :
    (t.put l e).get? l = some e := by
  simp [get?, put, h]

theorem get?_put_of_ne (t : FileTree) {l m : Location} (e : Entry) (h : l ≠ m) :
    (t.put l e).get? m = t.get? m := by
  simp only [get?, put]
  split
  · rfl
  · rw [List.find?_cons_of_neg (by simpa using h), List.find?_filter]
    congr 2
    funext x
    by_cases hx : x.1 = m
    · subst hx; simp [Ne.symm h]
    · simp [hx]

def bytes (t : Text) : Nat := (String.ofList t).utf8ByteSize

/-- A path as the system takes it: not empty, without NUL, and of at most 4095 bytes. -/
def pieces (p : Path) : Except Cause (List Text) :=
  if '\x00' ∈ p.text then .error .nulInName
  else if p.text = [] then .error .notFound
  else if 4095 < bytes p.text then .error .nameTooLong
  else .ok (p.text.splitOn '/')

def base (t : FileTree) (p : Path) : Location := if p.isAbsolute then [] else t.current

def follow (t : FileTree) (l : Location) (piece : Text) : Except Cause Location :=
  match t.get? l with
  | none => .error .notFound
  | some (.file _) => .error .notADirectory
  | some .directory =>
    if piece = [] ∨ piece = ['.'] then .ok l
    else if piece = ['.', '.'] then .ok l.dropLast
    else if 255 < bytes piece then .error .nameTooLong
    else .ok (l ++ [piece])

/-- The place that a path names, whether or not something is there. -/
def resolve (t : FileTree) (p : Path) : Except Cause Location := do
  (← pieces p).foldlM t.follow (t.base p)

def find (t : FileTree) (p : Path) : Except Cause Entry := do
  match t.get? (← t.resolve p) with
  | some e => .ok e
  | none => .error .notFound

/-- The size of a file in bytes; directories have one too. -/
def size (t : FileTree) (p : Path) : Except Cause Nat := do
  match ← t.find p with
  | .file content => .ok content.size
  | .directory => .ok 4096

def read (t : FileTree) (p : Path) : Except Cause ByteArray := do
  match ← t.find p with
  | .file content => .ok content
  | .directory => .error .isADirectory

def write (t : FileTree) (p : Path) (content : ByteArray) : Except Cause FileTree := do
  let l ← t.resolve p
  match t.get? l with
  | some .directory => .error .isADirectory
  | _ => .ok (t.put l (.file content))

/-- Takes the last piece of a path apart from those before it; a trailing slash does not count. -/
def splitLast? (pieces : List Text) : Option (List Text × Text) :=
  match (pieces.reverse.dropWhile (· = [])) with
  | [] => none
  | last :: before => some (before.reverse, last)

/-- Makes one directory, in a directory that is there already. -/
def createDirectory (t : FileTree) (p : Path) : Except Cause FileTree := do
  match splitLast? (← pieces p) with
  | none => .error .exists
  | some (before, last) =>
    let l ← t.follow (← before.foldlM t.follow (t.base p)) last
    if (t.get? l).isSome then .error .exists else .ok (t.put l .directory)

def isDirectory (t : FileTree) (p : Path) : Bool :=
  match t.find p with
  | .ok .directory => true
  | _ => false

/-- Makes a directory with those above it, as far as they are missing. Directories that were made
stay also if a later one cannot be made. `fuel` bounds how many lie above it. -/
def createUpTo : Nat → FileTree → Path → FileTree × Option Cause
  | 0, t, _ => (t, none)
  | fuel + 1, t, p =>
    let attempt (t : FileTree) (onMissing : FileTree × Option Cause) : FileTree × Option Cause :=
      match t.createDirectory p with
      | .ok t => (t, none)
      | .error .notFound => onMissing
      | .error c => (t, if t.isDirectory p then none else some c)
    if p.text = [] then (t, none)
    else attempt t <|
      match p.parent? with
      | none => (t, some .notFound)
      | some above =>
        match createUpTo fuel t above with
        | (t, some c) => (t, some c)
        | (t, none) => attempt t (t, some .notFound)

def createDirectories (t : FileTree) (p : Path) : FileTree × Option Cause :=
  createUpTo (p.text.length + 1) t p

def copy (t : FileTree) (source target : Path) : Except Cause FileTree := do
  t.write target (← t.read source)

def pathOf (l : Location) : Path := ⟨l.flatMap fun name => '/' :: name⟩

/-- The path from the root on. -/
def absolute (t : FileTree) (p : Path) : Path := (pathOf t.current).join p

/-- Makes a directory with a new name below another one. A name that is taken is drawn again, up to
`tries` times. -/
def createDrawn (t : FileTree) (parent : Path) (start : Text) (n : Nat) :
    Nat → Except Cause (Path × FileTree)
  | 0 => .error .exists
  | tries + 1 =>
    let path := parent.join ⟨start ++ (t.drawn n).text⟩
    match t.createDirectory path with
    | .ok t => .ok (path, t)
    | .error .exists => t.createDrawn parent start (n + 1) tries
    | .error c => .error c

def createFresh (t : FileTree) (parent : Path) (start : Text) : Except Cause (Path × FileTree) :=
  t.createDrawn parent start 0 65536

/-- A tree with nothing but these directories. -/
def new (current : Location) (temporary : Path) : FileTree :=
  let t : FileTree := { entries := [], current := [], temporary }
  let t := (t.createDirectories (pathOf current)).1
  let t := (t.createDirectories temporary).1
  { t with current := current }

def files (t : FileTree) : List (Location × ByteArray) :=
  t.entries.filterMap fun
    | (l, .file content) => some (l, content)
    | (_, .directory) => none

end FileTree

end Errata
