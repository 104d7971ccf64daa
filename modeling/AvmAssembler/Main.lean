import AvmAssembler.CommandLine

/-! # The program

The command on the file system at hand. The files that a run can reach are loaded first, the command is run on them as
a function, and its outputs and changed files are written out afterwards.
-/

namespace AvmAssembler.Main

open CommandLine

/-- The texts of the string literals in a source, whether or not the source is well formed. -/
def quotedTexts (source : String) : List String :=
  ((Cursor.ofText source).steps (Source.ofText "" source) (source.length + 1)).filterMap fun
    | .token t => if t.kind = .string then some t.text else none
    | .ending _ => none

/-- The paths that a file can reach through the string literals of its text. -/
def reachable (searchPaths : List String) (path : Path) (content : List UInt8) : List Path :=
  match FileTree.textOf content with
  | .error _ => []
  | .ok text =>
    let directories := path.parent :: {} :: searchPaths.map Path.ofString
    (quotedTexts text).flatMap fun quoted => directories.map fun d => d.join (Path.ofString quoted)

def written (place : Place) : String :=
  "/" ++ "/".intercalate place

def loadPlace (tree : FileTree) (place : Place) : IO FileTree := do
  if (tree.entryAt place).isSome then return tree
  let actual := (← IO.currentDir) / written place
  if ← actual.isDir then return tree.put place .directory
  if !(← actual.pathExists) then return tree
  return tree.put place (.file (← IO.FS.readBinFile actual).toList false)

def loadPath (tree : FileTree) (path : Path) : IO FileTree := do
  let mut tree := tree
  let mut place := tree.base path
  for part in path.parts do
    place := if part = ".." then place.dropLast else place ++ [part]
    tree ← loadPlace tree place
  return tree

/-- Load the paths and all that can be reached from them. -/
partial def load (searchPaths : List String) (visited : List Place) (paths : List Path)
    (tree : FileTree) : IO FileTree := do
  match paths with
  | [] => return tree
  | path :: rest =>
    let tree ← loadPath tree path
    match tree.target path with
    | .file place content _ =>
      if visited.contains place then load searchPaths visited rest tree
      else load searchPaths (place :: visited) (reachable searchPaths path content ++ rest) tree
    | _ => load searchPaths visited rest tree

/-- The paths that the words of the command line lead to. -/
def named (o : Options) : List Path :=
  let inputs := o.operands.map Path.ofString
  inputs ++ inputs.map (defaultOutput · o.disassemble) ++ o.output.toList.map Path.ofString
    ++ o.searchPaths.map Path.ofString

def store (changes : List (Place × List UInt8 × Bool)) : IO Unit := do
  for (place, content, executable) in changes do
    IO.FS.writeBinFile (written place) ⟨content.toArray⟩
    if executable then
      let shared := { read := true, execution := true }
      IO.setAccessRights (written place)
        { user := { read := true, write := true, execution := true }, group := shared, other := shared }

/-- The answer to a misuse of the command line. -/
def usage : String :=
  "Usage: anasm [OPTIONS] INPUT_FILE\nTry 'anasm --help' for help.\n"

/-- The answer to a request for help. -/
def help : String := "Usage: anasm [OPTIONS] INPUT_FILE

  Assemble AVM source code.

  INPUT_FILE is the assembly source (.anasm), or with -d an AVM executable.

Options:
  -o, --output FILE               Output file (default: input name without
                                  extension)
  -e, --executable / --no-executable
                                  Write the #!/usr/bin/avm line and set execute
                                  permissions. Default: enabled.
  --no-warnings                   Do not report warnings
  -m, --max-errors INTEGER        Errors and notes reported before assembly is
                                  aborted
  -I, --include DIRECTORY         Add include/embed search path (can be
                                  repeated)
  -d, --disasm                    Disassemble INPUT_FILE instead of assembling
                                  it
  -v, --verbose                   Verbose output
  --version                       Show the version and exit.
  --help                          Show this message and exit.
"

end AvmAssembler.Main

open AvmAssembler CommandLine in
def main (words : List String) : IO UInt32 := do
  let options := Options.ofWords words
  let around : FileTree := { directory := (Path.ofString (← IO.currentDir).toString).parts }
  let tree ← match options with
    | some o => Main.load o.searchPaths [] (Main.named o) around
    | none => pure around
  let result := run words tree
  IO.print result.stdout
  IO.eprint (result.stderr.getD Main.usage)
  if options.any fun o => o.inquiry = some .help then IO.print Main.help
  Main.store (tree.changes result.tree)
  return UInt32.ofNat result.exit.number
