import AvmAssembler.Files.FileError
import AvmAssembler.Text.Lines
import AvmAssembler.Text.Utf8

/-! # File trees

A finite tree of files as a value. A place is the list of names that leads to it from the root, so every file has one
place, however its path is spelled. A path is followed part by part, as the system does it: each part but the last has
to be a directory, in which it is allowed to look up the next. The directories on the way to the working directory
exist; apart from them only the entries do.
-/

namespace AvmAssembler

/-- A place in the file system; the empty list is the root. -/
abbrev Place := List String

inductive FileEntry where
  | file (content : List UInt8) (executable : Bool)
  | directory
  deriving DecidableEq

/-- A finite file tree; of two entries at a place the first counts. -/
structure FileTree where
  entries : List (Place × FileEntry) := []
  /-- The working directory. -/
  directory : Place := []
  /-- The directories in which nothing may be looked up. -/
  closed : List Place := []
  deriving DecidableEq

/-- What a path leads to. -/
inductive Target where
  | file (place : Place) (content : List UInt8) (executable : Bool)
  | directory (place : Place)
  /-- Nothing, in a directory that exists. -/
  | vacant (place : Place)
  | blocked (error : FileError)
  deriving DecidableEq

namespace Target

def isFile : Target → Bool
  | file .. => true
  | _ => false

def isDirectory : Target → Bool
  | directory _ => true
  | _ => false

end Target

namespace FileTree

/-- The greatest length of a name in bytes. -/
def nameLimit : Nat := 255

/-- The greatest length of a path in bytes, its final null character not counted. -/
def pathLimit : Nat := 4095

def entryAt (tree : FileTree) (place : Place) : Option FileEntry :=
  match tree.entries.lookup place with
  | some e => some e
  | none => if place.isPrefixOf tree.directory then some .directory else none

/-- What a part of a path leads to from a directory. -/
def lookUp (tree : FileTree) (directory : Place) (part : String) : Target :=
  if tree.closed.contains directory then .blocked .accessDenied
  -- The root is the directory above itself.
  else if part = ".." then .directory directory.dropLast
  else if part = "." then .directory directory
  else if nameLimit < part.utf8ByteSize then .blocked .nameTooLong
  else
    match tree.entryAt (directory ++ [part]) with
    | some .directory => .directory (directory ++ [part])
    | some (.file content executable) => .file (directory ++ [part]) content executable
    | none => .vacant (directory ++ [part])

def follow (tree : FileTree) (directory : Place) : List String → Target
  | [] => .directory directory
  | part :: rest =>
    match tree.lookUp directory part with
    | .directory place => tree.follow place rest
    | .file place content executable =>
      if rest.isEmpty then .file place content executable else .blocked .notDirectory
    | .vacant place => if rest.isEmpty then .vacant place else .blocked .noEntry
    | .blocked e => .blocked e

def base (tree : FileTree) (path : Path) : Place :=
  if path.root.isEmpty then tree.directory else []

def target (tree : FileTree) (path : Path) : Target :=
  if path.hasNull then .blocked .nullInName
  else if pathLimit < path.written.utf8ByteSize then .blocked .nameTooLong
  else tree.follow (tree.base path) path.parts

/-- What the written form of a path leads to before it is read as a path: the empty text leads nowhere, and a slash at
the end asks for a directory. -/
def rawTarget (tree : FileTree) (text : String) : Target :=
  if text.isEmpty then .blocked .noEntry
  else if pathLimit < text.utf8ByteSize then .blocked .nameTooLong
  else
    let parts := ((Path.pieces text.toList).map String.ofList).filter (· ≠ "")
    let parts := if text.toList.getLast? = some '/' then parts ++ ["."] else parts
    tree.follow (if text.toList.head? = some '/' then [] else tree.directory) parts

/-- The place of the file that a path leads to, if it leads to one. An error that says that there is none is an answer
as well, any other cuts the search short. -/
def place? (tree : FileTree) (path : Path) : Except SearchError (Option Place) :=
  match tree.target path with
  | .file place .. => .ok (some place)
  | .blocked e => if e.isAbsence then .ok none else .error ⟨path, e⟩
  | .directory _ | .vacant _ => .ok none

def isFile (tree : FileTree) (path : Path) : Except SearchError Bool :=
  (tree.place? path).map Option.isSome

def readBytes (tree : FileTree) (path : Path) : Except FileError (List UInt8) :=
  match tree.target path with
  | .file _ content _ => .ok content
  | .directory _ => .error .isDirectory
  | .vacant _ => .error .noEntry
  | .blocked e => .error e

/-- The text written by bytes of a text file. -/
def textOf (content : List UInt8) : Except Text.Utf8.Malformed String :=
  (Text.Utf8.decode content).map fun cs => String.ofList (Text.universalNewlines cs)

def places (tree : FileTree) : List Place :=
  tree.entries.map Prod.fst

theorem mem_places_of_entryAt {tree : FileTree} {place : Place} {content : List UInt8} {x : Bool}
    (h : tree.entryAt place = some (.file content x)) : place ∈ tree.places := by
  unfold entryAt at h
  split at h
  · rename_i e he
    obtain ⟨l₁, l₂, hl, -⟩ := List.lookup_eq_some_iff.1 he
    simp [places, hl]
  · split at h <;> simp at h

theorem entryAt_of_lookUp {tree : FileTree} {directory place : Place} {part : String} {content : List UInt8} {x : Bool}
    (h : tree.lookUp directory part = .file place content x) : tree.entryAt place = some (.file content x) := by
  unfold lookUp at h
  repeat' split at h
  all_goals cases h
  assumption

/-- What is read at the end of a path is the entry at its place. -/
theorem entryAt_of_follow {tree : FileTree} {parts : List String} {directory place : Place} {content : List UInt8}
    {x : Bool} (h : tree.follow directory parts = .file place content x) :
    tree.entryAt place = some (.file content x) := by
  induction parts generalizing directory with
  | nil => cases h
  | cons part rest ih =>
    unfold follow at h
    split at h
    · exact ih h
    · split at h
      · cases h
        exact entryAt_of_lookUp ‹_›
      · cases h
    · split at h <;> cases h
    · cases h

theorem entryAt_of_target {tree : FileTree} {path : Path} {place : Place} {content : List UInt8} {x : Bool}
    (h : tree.target path = .file place content x) : tree.entryAt place = some (.file content x) := by
  unfold target at h
  repeat' split at h
  · cases h
  · cases h
  · exact entryAt_of_follow h

theorem mem_places_of_target {tree : FileTree} {path : Path} {place : Place} {content : List UInt8} {x : Bool}
    (h : tree.target path = .file place content x) : place ∈ tree.places :=
  mem_places_of_entryAt (entryAt_of_target h)

/-- The name of a source that is not a file. -/
def inputName : String := "<input>"

/-- The paths that a path written in the named source may stand for, in the order in which they are tried. A path that
starts with a dot is seen from the directory of that source, any other from the working directory and then from each
search path. -/
def candidates (path source : String) (searchPaths : List String) : List Path :=
  let written := Path.ofString path
  if path.toList.head? = some '.' then
    [(if source = inputName then {} else (Path.ofString source).parent : Path).join written]
  else written :: searchPaths.map fun d => (Path.ofString d).join written

/-- The first of the candidates that is a file. -/
def find? (tree : FileTree) (path source : String) (searchPaths : List String) : Except SearchError (Option Path) :=
  (candidates path source searchPaths).findM? tree.isFile

def put (tree : FileTree) (place : Place) (entry : FileEntry) : FileTree :=
  if tree.entries.any fun e => e.1 = place then
    { tree with entries := tree.entries.map fun e => if e.1 = place then (place, entry) else e }
  else { tree with entries := tree.entries ++ [(place, entry)] }

/-- The place at which a file can be written and whether an executable file stands there already. -/
def openForWriting (tree : FileTree) (path : Path) : Except FileError (Place × Bool) :=
  match tree.target path with
  | .file place _ executable => .ok (place, executable)
  | .directory _ => .error .isDirectory
  | .vacant place => .ok (place, false)
  | .blocked e => .error e

/-- Put an entry where the parts lead from a directory, and directories on the way where nothing is. -/
def insertFrom (tree : FileTree) (directory : Place) (entry : FileEntry) : List String → FileTree
  | [] => tree
  | [name] => tree.put (directory ++ [name]) entry
  | part :: rest =>
    if part = ".." then tree.insertFrom directory.dropLast entry rest
    else
      let place := directory ++ [part]
      let tree := if (tree.entryAt place).isSome then tree else tree.put place .directory
      tree.insertFrom place entry rest

/-- Put an entry at a path together with the directories above it. -/
def insert (tree : FileTree) (path : String) (entry : FileEntry) : FileTree :=
  tree.insertFrom (tree.base (Path.ofString path)) entry (Path.ofString path).parts

/-- A tree with the given entries around a working directory. -/
def ofList (directory : Place) (entries : List (String × FileEntry)) : FileTree :=
  entries.foldl (fun t e => t.insert e.1 e.2) { directory := directory }

/-- The files whose content or mark differs from an earlier tree. -/
def changes (earlier later : FileTree) : List (Place × List UInt8 × Bool) :=
  later.entries.filterMap fun (place, e) =>
    match e with
    | .file content executable =>
      if earlier.entries.lookup place = some e then none else some (place, content, executable)
    | .directory => none

end FileTree

end AvmAssembler
