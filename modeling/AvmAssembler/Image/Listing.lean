import AvmAssembler.Image

/-! # Listings of images

An image written as source text again. Names cannot be recovered: arguments are the words themselves, memory is one
variable of bytes, and the entry point becomes a label. An opcode that is not in the instruction table is listed as a
comment.
-/

namespace AvmAssembler

/-- A record at its place in the program, with the row of its opcode if the table has one. -/
structure ListedRecord where
  index : Nat
  record : Record
  mnemonic : Option Mnemonic

namespace ListedRecord

/-- An integer in base sixteen with at least two upper-case digits or one digit and a sign. -/
def hex (n : Int) : String :=
  if n < 0 then "-" ++ (String.ofList (Nat.toDigits 16 n.natAbs)).toUpper
  else Text.Digit.upperHexPair n.toNat

def text (r : ListedRecord) : String :=
  match r.mnemonic with
  | none => s!"# unknown opcode 0x{hex r.record.opcode}, argument {r.record.argument}"
  | some m => if m.takesArgument then s!"{m.name} {r.record.argument}" else m.name

end ListedRecord

namespace Image

def defaultIndent : String := "    "

def entryLabel : String := "entry"

def listedRecords (image : Image) : List ListedRecord :=
  image.records.mapIdx fun i r => ⟨i, r, InstructionSet.byOpcode? r.opcode⟩

/-- Bytes in a row of memory. -/
def rowLength : Nat := 16

/-- Cut bytes into rows; the last row may be shorter. -/
def rows (bytes : List UInt8) : List (List UInt8) :=
  if _h : bytes = [] then []
  else bytes.take rowLength :: rows (bytes.drop rowLength)
termination_by bytes.length
decreasing_by
  have := List.length_pos_iff.2 _h
  simp only [List.length_drop, rowLength]
  omega

def rowText (row : List UInt8) : String :=
  ", ".intercalate (row.map fun b => s!"0x{Text.Digit.upperHexPair b.toNat}")

/-- Indented rows with a comma after each but the last. -/
def rowLines (indent : String) : List (List UInt8) → List String
  | [] => []
  | [row] => [s!"{indent}{rowText row}"]
  | row :: rest => s!"{indent}{rowText row}," :: rowLines indent rest

def memoryLines (indent : String) (memory : List UInt8) : List String :=
  "let memory byte =" :: rowLines indent (rows memory)

/-- The lines of a record, with the entry label before it if it is the entry point. -/
def recordLines (indent : String) (entryPoint : Int) (r : ListedRecord) : List String :=
  (if (r.index : Int) = entryPoint then [s!".{entryLabel}"] else []) ++ [s!"{indent}{r.text}"]

def headLines (image : Image) (name : Option String) : List String :=
  let v := image.version
  ((name.filter fun n => !n.isEmpty).toList.map fun n => s!"# Disassembly of {n}") ++
    [s!"# AVM format {v.major}.{v.minor}.{v.patch}",
      s!"# {image.records.length} instructions, {image.memory.length} bytes of memory", ""]

def lines (indent : String) (name : Option String) (image : Image) : List String :=
  image.headLines name ++
    (if image.memory.isEmpty then [] else memoryLines indent image.memory ++ [""]) ++
    image.listedRecords.flatMap (recordLines indent image.entryPoint) ++
    (if (image.records.length : Int) ≤ image.entryPoint then [s!".{entryLabel}"] else [])

/-- An image as source text. -/
def listing (indent : String) (name : Option String) (image : Image) : String :=
  String.join ((image.lines indent name).map fun line => line ++ "\n")

end Image

end AvmAssembler
