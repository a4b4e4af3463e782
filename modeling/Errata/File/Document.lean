import Errata.File.Encoding
import Errata.File.Tree

/-!
# Document caches

A cache reads each file once: from then on it answers with the text it has, whatever happens to the
file. A read that fails leaves no trace, so the file is tried again the next time.
-/
namespace Errata

structure Document where
  text : Text
  encoding : Encoding
  deriving DecidableEq, Repr

inductive DocumentError where
  | tooLarge (path : Path) (size limit : Nat)
  | notText (path : Path)
  | notEncodable (path : Path) (encoding : Encoding)
  /-- The file system said so. -/
  | system (message : Text)
  deriving DecidableEq, Repr

namespace DocumentError

def message : DocumentError → Text
  | .tooLarge path size limit =>
    path.text ++ " is " ++ Text.ofNat size ++ " bytes, over the " ++ Text.ofNat limit ++
      " byte limit"
  | .notText path => path.text ++ " does not look like a text document"
  | .notEncodable path encoding => path.text ++ " cannot be re-encoded as " ++ encoding.name
  | .system message => message

/-- The content is the cause, and not the file system. -/
def blamesContent : DocumentError → Bool
  | .system _ => false
  | _ => true

def ofCause (action : Action) (path : Path) (cause : Cause) : DocumentError :=
  .system (FileError.message ⟨action, path, cause⟩)

end DocumentError

namespace Document

/-- Refuses a file of more than `limit` bytes. -/
def checkSize (t : FileTree) (limit : Nat) (p : Path) : Except DocumentError Unit :=
  match t.size p with
  | .error c => .error (.ofCause .query p c)
  | .ok size => if limit < size then .error (.tooLarge p size limit) else .ok ()

/-- The document in a file, of whatever size. -/
def fetch (t : FileTree) (p : Path) : Except DocumentError Document :=
  match t.read p with
  | .error c => .error (.ofCause .read p c)
  | .ok bytes =>
    match Encoding.decode? bytes with
    | some (text, encoding) => .ok ⟨text, encoding⟩
    | none => .error (.notText p)

/-- The document in a file of at most `limit` bytes. -/
def read (t : FileTree) (limit : Nat) (p : Path) : Except DocumentError Document :=
  match checkSize t limit p with
  | .error e => .error e
  | .ok () => fetch t p

/-- Writes a text back in the encoding that it was read in. -/
def write (t : FileTree) (p : Path) (text : Text) (encoding : Encoding) :
    Except DocumentError FileTree :=
  match encoding.encode? text with
  | none => .error (.notEncodable p encoding)
  | some bytes =>
    match t.write p bytes with
    | .error c => .error (.ofCause .create p c)
    | .ok t => .ok t

end Document

structure Cache where
  /-- Larger files are refused. -/
  limit : Nat
  entries : List (Path × Document)

namespace Cache

/-- Ten mebibytes. -/
def defaultMaxBytes : Nat := 10 * 1024 * 1024

def new (limit : Nat) : Cache := ⟨limit, []⟩

def get? (c : Cache) (p : Path) : Option Document := (c.entries.find? (·.1.same p)).map (·.2)

def size (c : Cache) : Nat := c.entries.length

/-- Keeps a document for a path that has none yet. Gives the document that the path has then. -/
def keep (c : Cache) (p : Path) (d : Document) : Document × Cache :=
  match c.get? p with
  | some known => (known, c)
  | none => (d, { c with entries := (p, d) :: c.entries })

/-- The document at a path, and the cache that knows it from now on. -/
def read (c : Cache) (t : FileTree) (p : Path) : Except DocumentError Document × Cache :=
  match c.get? p with
  | some d => (.ok d, c)
  | none =>
    match Document.read t c.limit p with
    | .ok d => (c.keep p d).map .ok id
    | .error e => (.error e, c)

end Cache

end Errata
