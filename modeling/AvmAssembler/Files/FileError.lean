import AvmAssembler.Files.Path

/-! # File errors

The ways in which opening a file fails, and in which looking for one does.
-/

namespace AvmAssembler

inductive FileError where
  | noEntry
  | notDirectory
  | isDirectory
  /-- A part of the path, or the path as a whole, is longer than the system admits. -/
  | nameTooLong
  /-- The path passes a directory in which nothing may be looked up. -/
  | accessDenied
  /-- The name holds a null character, so that the system is not even asked. -/
  | nullInName
  deriving DecidableEq, Inhabited

namespace FileError

def message : FileError → String
  | noEntry => "No such file or directory"
  | notDirectory => "Not a directory"
  | isDirectory => "Is a directory"
  | nameTooLong => "File name too long"
  | accessDenied => "Permission denied"
  | nullInName => "embedded null byte"

/-- The error says that there is no file. Any other leaves open whether there is one. -/
def isAbsence : FileError → Bool
  | noEntry | notDirectory | isDirectory | nullInName => true
  | nameTooLong | accessDenied => false

end FileError

/-- A search for a file was cut short, since it cannot be told whether the path leads to one. -/
structure SearchError where
  path : Path
  error : FileError
  deriving DecidableEq

end AvmAssembler
