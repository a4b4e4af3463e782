import Errata.Path.Basic

/-!
# File errors

What can go wrong with a file, in two layers: the cause as the system names it, and the operation
and path it was met with.
-/
namespace Errata

inductive Cause where
  | notFound
  | permissionDenied
  | exists
  | notADirectory
  | isADirectory
  | nameTooLong
  | nulInName
  deriving DecidableEq, Repr

namespace Cause

def message : Cause → Text
  | .notFound => "No such file or directory (os error 2)"
  | .permissionDenied => "Permission denied (os error 13)"
  | .exists => "File exists (os error 17)"
  | .notADirectory => "Not a directory (os error 20)"
  | .isADirectory => "Is a directory (os error 21)"
  | .nameTooLong => "File name too long (os error 36)"
  | .nulInName => "file name contained an unexpected NUL byte"

end Cause

inductive Action where
  | query
  | read
  | create
  | createDirectory
  deriving DecidableEq, Repr

structure FileError where
  action : Action
  path : Path
  cause : Cause
  deriving DecidableEq, Repr

namespace FileError

def message (e : FileError) : Text :=
  let what : Text := match e.action with
    | .query => "failed to query resolved metadata"
    | .read => "failed to read from file"
    | .create => "failed to create file"
    | .createDirectory => "failed to create directory"
  what ++ " `" ++ e.path.text ++ "`: " ++ e.cause.message

end FileError

end Errata
