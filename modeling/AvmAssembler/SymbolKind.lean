/-! # Kinds of symbols

Labels, variables and constants share one name space and differ in what they stand for.
-/

namespace AvmAssembler

inductive SymbolKind where
  | label
  | region
  | constant
  deriving DecidableEq, Inhabited

def SymbolKind.word : SymbolKind → String
  | label => "label"
  | region => "variable"
  | constant => "macro"

end AvmAssembler
