import AvmAssembler.Text.Digit

/-! # The instruction set of the machine

Each mnemonic has an opcode byte and either takes an argument word or does not. The table is used in both
directions: by mnemonic when code is generated and by opcode when it is listed.
-/

namespace AvmAssembler

/-- One row of the instruction table. -/
structure Mnemonic where
  name : String
  opcode : Nat
  takesArgument : Bool := false
  deriving DecidableEq, Inhabited

namespace InstructionSet

/-- The instruction table, by rising opcode. -/
def table : List Mnemonic :=
  [⟨"nop", 0x00, false⟩,
   ⟨"psh", 0x10, true⟩, ⟨"pop", 0x11, false⟩,
   ⟨"add", 0x20, false⟩, ⟨"sub", 0x21, false⟩, ⟨"mul", 0x22, false⟩, ⟨"div", 0x23, false⟩,
   ⟨"mod", 0x24, false⟩, ⟨"inc", 0x25, false⟩, ⟨"dec", 0x26, false⟩,
   ⟨"fad", 0x27, false⟩, ⟨"fsb", 0x28, false⟩, ⟨"fmu", 0x29, false⟩, ⟨"fdi", 0x2a, false⟩,
   ⟨"fin", 0x2b, false⟩, ⟨"fde", 0x2c, false⟩,
   ⟨"neg", 0x2d, false⟩, ⟨"not", 0x2e, false⟩,
   ⟨"jmp", 0x30, true⟩, ⟨"jnz", 0x31, true⟩,
   ⟨"equ", 0x32, false⟩, ⟨"neq", 0x33, false⟩, ⟨"grt", 0x34, false⟩, ⟨"geq", 0x35, false⟩,
   ⟨"les", 0x36, false⟩, ⟨"leq", 0x37, false⟩,
   ⟨"cal", 0x38, true⟩, ⟨"ret", 0x39, false⟩,
   ⟨"ueq", 0x3a, false⟩, ⟨"une", 0x3b, false⟩, ⟨"ugr", 0x3c, false⟩, ⟨"ugq", 0x3d, false⟩,
   ⟨"ule", 0x3e, false⟩, ⟨"ulq", 0x3f, false⟩,
   ⟨"feq", 0x40, false⟩, ⟨"fne", 0x41, false⟩, ⟨"fgr", 0x42, false⟩, ⟨"fgq", 0x43, false⟩,
   ⟨"fle", 0x44, false⟩, ⟨"flq", 0x45, false⟩,
   ⟨"and", 0x46, false⟩, ⟨"orr", 0x47, false⟩,
   ⟨"dup", 0x50, true⟩, ⟨"swp", 0x51, true⟩, ⟨"emp", 0x52, false⟩, ⟨"set", 0x53, false⟩,
   ⟨"cpy", 0x54, false⟩,
   ⟨"r08", 0x60, false⟩, ⟨"r16", 0x61, false⟩, ⟨"r32", 0x62, false⟩, ⟨"r64", 0x63, false⟩,
   ⟨"w08", 0x64, false⟩, ⟨"w16", 0x65, false⟩, ⟨"w32", 0x66, false⟩, ⟨"w64", 0x67, false⟩,
   ⟨"ope", 0x70, false⟩, ⟨"clo", 0x71, false⟩, ⟨"wrf", 0x72, false⟩, ⟨"rdf", 0x73, false⟩,
   ⟨"szf", 0x74, false⟩, ⟨"flu", 0x75, false⟩,
   ⟨"ban", 0x80, false⟩, ⟨"bor", 0x81, false⟩, ⟨"bsr", 0x82, false⟩, ⟨"bsl", 0x83, false⟩,
   ⟨"lol", 0x90, false⟩, ⟨"cll", 0x91, false⟩, ⟨"llf", 0x92, false⟩, ⟨"ulf", 0x93, false⟩,
   ⟨"clf", 0x94, false⟩,
   ⟨"dmp", 0xf0, false⟩, ⟨"prt", 0xf1, false⟩, ⟨"fpr", 0xf2, false⟩,
   ⟨"hlt", 0xff, false⟩]

def byName? (name : String) : Option Mnemonic :=
  table.find? fun m => m.name = name

def byOpcode? (opcode : Int) : Option Mnemonic :=
  table.find? fun m => (m.opcode : Int) = opcode

def isMnemonic (name : String) : Bool :=
  (byName? name).isSome

/-- The mnemonic that pushes a word; a bare expression stands for it. -/
def push : String := "psh"

theorem byName?_name {name : String} {m : Mnemonic} (h : byName? name = some m) : m.name = name := by
  have := List.find?_some h
  simpa using this

theorem byOpcode?_opcode {opcode : Int} {m : Mnemonic} (h : byOpcode? opcode = some m) :
    (m.opcode : Int) = opcode := by
  have := List.find?_some h
  simpa using this

end InstructionSet

/-- The encoding of a mnemonic, as shown to a user who asks for it. -/
def Mnemonic.encoding (m : Mnemonic) : String :=
  let arg := if m.takesArgument then ", arg" else ""
  s!"InstructionInfo(0x{Text.Digit.upperHexPair m.opcode}{arg})"

end AvmAssembler
