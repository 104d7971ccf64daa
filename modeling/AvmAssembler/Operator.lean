/-! # Operators of expressions

The ten operators and the symbols that stand for them. The operator position of a form may also hold text that is
no operator, when the form was not read from source; it is kept so that it can be reported.
-/

namespace AvmAssembler

inductive Operator where
  | add
  | sub
  | mul
  | div
  | mod
  | pow
  | conj
  | disj
  | shiftRight
  | shiftLeft
  deriving DecidableEq, Inhabited

namespace Operator

def all : List Operator :=
  [add, sub, mul, div, mod, pow, conj, disj, shiftRight, shiftLeft]

def symbol : Operator → String
  | add => "+"
  | sub => "-"
  | mul => "*"
  | div => "/"
  | mod => "%"
  | pow => "^"
  | conj => "&"
  | disj => "|"
  | shiftRight => ">>"
  | shiftLeft => "<<"

def ofSymbol? (s : String) : Option Operator :=
  all.find? fun o => o.symbol = s

theorem ofSymbol?_symbol (o : Operator) : ofSymbol? o.symbol = some o := by
  cases o <;> decide

end Operator

/-- What stands in the operator position of a form. -/
inductive OperatorSign where
  | known (operator : Operator)
  | unknown (text : String)
  deriving DecidableEq, Inhabited

namespace OperatorSign

def text : OperatorSign → String
  | known o => o.symbol
  | unknown s => s

def ofText (s : String) : OperatorSign :=
  match Operator.ofSymbol? s with
  | some o => known o
  | none => unknown s

end OperatorSign

end AvmAssembler
