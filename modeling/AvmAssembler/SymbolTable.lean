import AvmAssembler.Fault
import AvmAssembler.Text.EditDistance
import AvmAssembler.Text.Case

/-! # Symbols

Labels, variables and constants share one table, which keeps the order of definition. The first definition of a name
stays for ever; a later one is refused and changes nothing.
-/

namespace AvmAssembler

/-- What a symbol stands for: the index of an instruction, a region of memory, or a word. -/
inductive Meaning where
  | label (index : Int)
  | region (address size : Int)
  | constant (value : Int)
  deriving DecidableEq

namespace Meaning

def kind : Meaning → SymbolKind
  | label _ => .label
  | region .. => .region
  | constant _ => .constant

/-- The number that stands for the symbol in an expression. -/
def value : Meaning → Int
  | label n | region n _ | constant n => n

end Meaning

/-- A definition: where it was made, if that is known, and what it means. -/
structure Symbol where
  location : Option Location
  meaning : Meaning
  deriving DecidableEq

/-- The symbols in order of definition. -/
structure SymbolTable where
  entries : List (String × Symbol) := []
  deriving DecidableEq

namespace SymbolTable

def get? (table : SymbolTable) (name : String) : Option Symbol :=
  table.entries.lookup name

def contains (table : SymbolTable) (name : String) : Bool :=
  (table.get? name).isSome

def names (table : SymbolTable) : List String :=
  table.entries.map Prod.fst

def size (table : SymbolTable) : Nat :=
  table.entries.length

def ofKind (table : SymbolTable) (kind : SymbolKind) : List (String × Symbol) :=
  table.entries.filter fun e => e.2.meaning.kind = kind

def checkFree (table : SymbolTable) (name : String) (location : Option Location) :
    Except Fault Unit :=
  match table.get? name with
  | some first => .error ⟨.redefinition name first.location, location⟩
  | none => .ok ()

def push (table : SymbolTable) (name : String) (symbol : Symbol) : SymbolTable :=
  ⟨table.entries ++ [(name, symbol)]⟩

/-- Define a name that is free. -/
def define (table : SymbolTable) (name : String) (symbol : Symbol) : Except Fault SymbolTable :=
  (table.checkFree name symbol.location).map fun _ => table.push name symbol

/-- Two names are alike: equal up to letter case, or of nearly the same length and two edits apart. -/
def alike (name other : String) : Bool :=
  Text.Case.fold other = Text.Case.fold name ||
    (other.length ≤ name.length + 1 && name.length ≤ other.length + 1 &&
      Text.EditDistance.between (Text.Case.fold name) (Text.Case.fold other) ≤ 2)

/-- Defined names that are like the given one, a few of them. -/
def similar (table : SymbolTable) (name : String) : List String :=
  (table.names.filter (alike name)).take Cause.suggestionLimit

end SymbolTable

end AvmAssembler
