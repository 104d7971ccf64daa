/-! # Paths

A path is a root and a list of parts. Empty parts and the part `.` are dropped when a path is read, the part `..`
stays, since its meaning depends on the files it passes.
-/

namespace AvmAssembler

/-- A path: the slashes it starts with and its parts. -/
structure Path where
  /-- Empty for relative paths, else one slash or two. -/
  root : String := ""
  parts : List String := []
  deriving DecidableEq, Inhabited

namespace Path

/-- The pieces of a text between slashes. -/
def pieces : List Char → List (List Char)
  | [] => [[]]
  | c :: cs =>
    match pieces cs with
    | [] => [[c]]
    | piece :: rest => if c = '/' then [] :: piece :: rest else (c :: piece) :: rest

/-- The slashes at the front of a text that form a root: two stay two, any other number counts as one. -/
def rootOf : List Char → String
  | '/' :: '/' :: '/' :: _ => "/"
  | '/' :: '/' :: _ => "//"
  | '/' :: _ => "/"
  | _ => ""

def ofString (s : String) : Path :=
  ⟨rootOf s.toList, ((pieces s.toList).map String.ofList).filter fun p => p ≠ "" && p ≠ "."⟩

/-- The written form of a path; the path without root and parts is `.`. -/
def written (p : Path) : String :=
  if p.root.isEmpty && p.parts.isEmpty then "." else p.root ++ "/".intercalate p.parts

/-- The second path seen from the first. A path with a root is the same from everywhere. -/
def join (p q : Path) : Path :=
  if q.root.isEmpty then ⟨p.root, p.parts ++ q.parts⟩ else q

/-- The path holds a null character, which no name of a file does. -/
def hasNull (p : Path) : Bool :=
  p.parts.any fun part => part.toList.contains '\x00'

def parent (p : Path) : Path :=
  ⟨p.root, p.parts.dropLast⟩

/-- The last part, empty if there is none. -/
def name (p : Path) : String :=
  p.parts.getLast?.getD ""

/-- Split a name at its last dot, if that is neither its first nor its last character. -/
def splitName (name : String) : String × String :=
  let back := name.toList.reverse
  let ext := back.takeWhile (· ≠ '.')
  match back.dropWhile (· ≠ '.') with
  | _ :: stem =>
    if stem.isEmpty || ext.isEmpty then (name, "")
    else (String.ofList stem.reverse, String.ofList ('.' :: ext.reverse))
  | [] => (name, "")

/-- The end of a name from its last dot on, or nothing. -/
def suffix (name : String) : String :=
  (splitName name).2

def withoutSuffix (name : String) : String :=
  (splitName name).1

end Path

end AvmAssembler
