import AvmAssembler.InstructionSet
import AvmAssembler.Number.Word
import AvmAssembler.Text.Quoted

/-! # Executable images

An assembled program: its memory, its instruction records and its entry point, with the version of the format. The
numeric fields are integers; a field that does not fit its place in the file has no binary form.
-/

namespace AvmAssembler

/-- One encoded instruction. The argument is zero when the mnemonic takes none. -/
structure Record where
  opcode : Int
  argument : Int := 0
  deriving DecidableEq, Inhabited

structure Version where
  major : Int
  minor : Int
  patch : Int
  deriving DecidableEq, Inhabited

def Version.current : Version := ⟨1, 13, 13⟩

structure Image where
  memory : List UInt8 := []
  records : List Record := []
  entryPoint : Int := 0
  version : Version := Version.current
  deriving DecidableEq, Inhabited

inductive FieldRange where
  | outOfRange
  deriving DecidableEq

inductive ImageError where
  | unterminatedInterpreterLine
  | short (length : Nat)
  | badMagic (magic : List UInt8)
  | truncated (expected actual : Nat)
  deriving DecidableEq

def ImageError.message : ImageError → String
  | unterminatedInterpreterLine => "AVM file truncated after interpreter line"
  | short n => s!"AVM file too short: {n} bytes"
  | badMagic magic => s!"Invalid AVM magic: {Text.Quoted.bytes magic}"
  | truncated expected actual => s!"AVM file truncated: expected {expected} bytes, got {actual}"

/-- A number in `n` bytes, most significant first. -/
def field (n : Nat) (v : Int) : Except FieldRange (List UInt8) :=
  if 0 ≤ v ∧ v < Nat.pow 256 n then .ok (bigEndian n v.toNat) else .error .outOfRange

namespace Record

def byteLength : Nat := 9

/-- An opcode byte and an argument word. -/
def encode (r : Record) : Except FieldRange (List UInt8) := do
  let opcode ← field 1 r.opcode
  let argument ← field 8 r.argument
  pure (opcode ++ argument)

/-- Read a record from exactly nine bytes. -/
def decode? (bytes : List UInt8) : Except FieldRange Record :=
  match bytes with
  | opcode :: argument =>
    if argument.length + 1 = byteLength then .ok ⟨opcode.toNat, ofBigEndian argument⟩
    else .error .outOfRange
  | [] => .error .outOfRange

end Record

namespace Image

/-- The letters at the start of an image. -/
def magic : List UInt8 := [0x41, 0x56, 0x4d]

def interpreterLine : List UInt8 := "#!/usr/bin/avm\n".toUTF8.data.toList

def headerLength : Nat := 30

/-- Magic, version, the number of records, the size of the memory and the entry point. -/
def header (image : Image) : Except FieldRange (List UInt8) := do
  let major ← field 1 image.version.major
  let minor ← field 1 image.version.minor
  let patch ← field 1 image.version.patch
  let records ← field 8 image.records.length
  let memory ← field 8 image.memory.length
  let entry ← field 8 image.entryPoint
  pure (magic ++ major ++ minor ++ patch ++ records ++ memory ++ entry)

def encodeRecords : List Record → Except FieldRange (List UInt8)
  | [] => .ok []
  | r :: rest => do
    let bytes ← r.encode
    let more ← encodeRecords rest
    pure (bytes ++ more)

/-- The binary form of an image: interpreter line if wanted, header, memory, records. -/
def encode (interpreter : Bool) (image : Image) : Except FieldRange (List UInt8) := do
  let header ← image.header
  let records ← encodeRecords image.records
  pure ((if interpreter then interpreterLine else []) ++ header ++ image.memory ++ records)

/-- The pieces of the binary form in the order in which they are written. -/
def pieces (interpreter : Bool) (image : Image) : List (Except FieldRange (List UInt8)) :=
  (if interpreter then [.ok interpreterLine] else []) ++
    [image.header, .ok image.memory] ++ image.records.map Record.encode

/-- The bytes of all pieces before the first that has no binary form, and whether there is such a piece. -/
def written : List (Except FieldRange (List UInt8)) → List UInt8 × Except FieldRange Unit
  | [] => ([], .ok ())
  | .error e :: _ => ([], .error e)
  | .ok bytes :: rest =>
    let (more, result) := written rest
    (bytes ++ more, result)

def skipInterpreterLine (bytes : List UInt8) : Except ImageError (List UInt8) :=
  match bytes with
  | 0x23 :: 0x21 :: _ =>
    match bytes.dropWhile (· ≠ 0x0a) with
    | _ :: rest => .ok rest
    | [] => .error .unterminatedInterpreterLine
  | _ => .ok bytes

def numberAt (bytes : List UInt8) (offset n : Nat) : Nat :=
  ofBigEndian ((bytes.drop offset).take n)

def decodeRecords : Nat → List UInt8 → List Record
  | 0, _ => []
  | n + 1, bytes =>
    ⟨numberAt bytes 0 1, numberAt bytes 1 8⟩ :: decodeRecords n (bytes.drop Record.byteLength)

/-- Read an image. Bytes after the last record are ignored. -/
def decode (bytes : List UInt8) : Except ImageError Image := do
  let bytes ← skipInterpreterLine bytes
  if bytes.length < headerLength then throw (.short bytes.length)
  if bytes.take 3 ≠ magic then throw (.badMagic (bytes.take 3))
  let recordCount := numberAt bytes 6 8
  let memorySize := numberAt bytes 14 8
  let expected := headerLength + memorySize + recordCount * Record.byteLength
  if bytes.length < expected then throw (.truncated expected bytes.length)
  let body := bytes.drop headerLength
  pure
    { memory := body.take memorySize
      records := decodeRecords recordCount (body.drop memorySize)
      entryPoint := numberAt bytes 22 8
      version := ⟨numberAt bytes 3 1, numberAt bytes 4 1, numberAt bytes 5 1⟩ }

end Image

end AvmAssembler
