import AvmAssembler.Source.Expr

/-! # Statements and programs

A program is the flat list of the statements of a unit, with the statements of included files in the places of their
inclusion.
-/

namespace AvmAssembler

/-- A statement. A `foreign` node is a tree that is no statement; its kind is kept for messages. -/
inductive Statement where
  /-- An instruction of the machine; a bare expression is a push. -/
  | instruction (location : Option Location) (name : String) (argument : Option Expr)
  /-- A name for the next instruction. -/
  | label (location : Option Location) (name : String)
  /-- A named word. -/
  | constant (location : Option Location) (name : String) (value : Expr)
  /-- A named region of memory with its initial elements. -/
  | region (location : Option Location) (name : String) (type : ElementType) (initializers : List Expr)
  /-- A named region of memory with the bytes of a file. -/
  | embedding (location : Option Location) (name : String) (path : String)
  | foreign (location : Option Location) (kind : String)
  deriving Inhabited

namespace Statement

def location : Statement → Option Location
  | instruction l .. | label l _ | constant l .. | region l .. | embedding l .. | foreign l _ => l

def kind : Statement → String
  | instruction .. => "Instruction"
  | label .. => "LabelDecl"
  | constant .. => "MacroDecl"
  | region .. => "VarDecl"
  | embedding .. => "Embed"
  | foreign _ kind => kind

def isInstruction : Statement → Bool
  | instruction .. => true
  | _ => false

/-- The name bound when code is generated: that of a constant, a region or an embedding. -/
def lateName? : Statement → Option String
  | constant _ name _ | region _ name _ _ | embedding _ name _ => some name
  | _ => none

def declared? : Statement → Option String
  | label _ name => some name
  | s => s.lateName?

end Statement

/-- A compilation unit. -/
structure Program where
  statements : List Statement := []
  file : String := "<input>"
  deriving Inhabited

def Program.instructionCount (p : Program) : Nat :=
  p.statements.countP Statement.isInstruction

end AvmAssembler
