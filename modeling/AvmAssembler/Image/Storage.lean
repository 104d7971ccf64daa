import AvmAssembler.Fault
import AvmAssembler.Files.FileTree
import AvmAssembler.Image

/-! # Images in files

Writing an image to a file and reading it back. An executable file is marked as such. A file that cannot be completed
keeps what was written before the failure.
-/

namespace AvmAssembler

inductive WriteError where
  | fault (fault : Fault)
  /-- No file can have the name. -/
  | name
  | range (e : FieldRange)
  deriving DecidableEq

inductive ReadError where
  | file (e : FileError)
  | image (e : ImageError)
  deriving DecidableEq

namespace Image

/-- Write an image to a file, with the interpreter line and the mark of an executable file if wanted. -/
def write (image : Image) (executable : Bool) (path : Path) (tree : FileTree) :
    FileTree × Except WriteError Unit :=
  match tree.openForWriting path with
  | .error .nullInName => (tree, .error .name)
  | .error e => (tree, .error (.fault ⟨.output path.written e, none⟩))
  | .ok (place, marked) =>
    let (content, result) := written (image.pieces executable)
    (tree.put place (.file content (marked || executable)), result.mapError .range)

def read (path : Path) (tree : FileTree) : Except ReadError Image := do
  let bytes ← (tree.readBytes path).mapError .file
  (decode bytes).mapError .image

end Image

end AvmAssembler
