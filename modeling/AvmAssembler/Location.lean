/-! # Locations in source text

A location names a file, a place in it, the number of characters covered there and the full text of
its line. The text of the line travels with the location, so a diagnostic can be shown without the file.
-/

namespace AvmAssembler

/-- A place in a source file. Lines and columns count from one in every location that the
assembler makes itself; the fields are integers because a location may also be supplied by a caller. -/
structure Location where
  file : String
  line : Int
  column : Int
  /-- Number of characters covered. -/
  length : Int := 1
  /-- Full text of the line, empty when unknown. -/
  sourceLine : String := ""
  deriving DecidableEq, Inhabited

/-- The written form `file:line:column`. -/
def Location.written (l : Location) : String :=
  s!"{l.file}:{l.line}:{l.column}"

end AvmAssembler
