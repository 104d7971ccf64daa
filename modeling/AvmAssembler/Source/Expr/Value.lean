import AvmAssembler.Number.Binary64
import AvmAssembler.Number.Word
import AvmAssembler.Source.Expr
import AvmAssembler.SymbolTable

/-! # Values of expressions

The value of an expression is a word. Arithmetic wraps around, division is unsigned and shifts are logical. Only the
size of a variable is taken as it is, so values are integers; on words, the operators yield words. An operator is
applied from the left to two or more operands, and each application is checked right after its operand has been
evaluated.
-/

namespace AvmAssembler

/-- Names declared later in the source, with the places of their declarations if they are known. -/
abbrev Pending := List (String × Option Location)

namespace Operator

/-- Shift by an amount, given what to do with the power of two. A shift by the width of a word or more leaves
nothing. -/
def shift (amount : Int) (f : Nat → Int) : Except Cause Int :=
  if Word.width ≤ amount then .ok 0
  else if amount < 0 then .error .negativeShift
  else .ok (f (Nat.pow 2 amount.toNat))

/-- Apply an operator to two operands. Division and remainder go to the floor. -/
def apply (o : Operator) (x y : Int) : Except Cause Int :=
  match o with
  | add => .ok (Word.ofInt (x + y))
  | sub => .ok (Word.ofInt (x - y))
  | mul => .ok (Word.ofInt (x * y))
  | div => if y = 0 then .error .divisionByZero else .ok (x.fdiv y)
  | mod => if y = 0 then .error .moduloByZero else .ok (x.fmod y)
  | pow =>
    match Binary64.power x y with
    | .ok r => .ok r
    | .error .range => .error .powerRange
    | .error .zeroToNegative => .error .zeroToNegative
  | conj => .ok (Word.conj x y)
  | disj => .ok (Word.disj x y)
  | shiftRight => shift y fun factor => x.fdiv factor
  | shiftLeft => shift y fun factor => Word.ofInt (x * factor)

end Operator

/-- Apply what stands in the operator position. -/
def OperatorSign.apply (sign : OperatorSign) (x y : Int) : Except Cause Int :=
  match sign with
  | known o => o.apply x y
  | unknown text => .error (.unknownOperator text)

namespace Expr

/-- The fault of a name that is not in the table. -/
def undefined (table : SymbolTable) (pending : Pending) (location : Option Location)
    (name : String) : Fault :=
  match pending.lookup name with
  | some (some declared) => ⟨.usedEarly name declared, location⟩
  | _ => ⟨.undeclared name (table.similar name), location⟩

def nameValue (table : SymbolTable) (pending : Pending) (location : Option Location)
    (name : String) : Except Fault Int :=
  match table.get? name with
  | some s => .ok (Word.ofInt s.meaning.value)
  | none => .error (undefined table pending location name)

/-- The size in bytes of a type or of a variable. -/
def sizeofValue (table : SymbolTable) (pending : Pending) : SizeofTarget → Except Fault Int
  | .type _ t => .ok t.size
  | .name l n =>
    match table.get? n with
    | none => .error (undefined table pending l n)
    | some s =>
      match s.meaning with
      | .region _ size => .ok size
      | m => .error ⟨.sizeofNonVariable m.kind n s.location, l⟩

mutual

def value (table : SymbolTable) (pending : Pending) : Expr → Except Fault Int
  | integer _ v => .ok (Word.ofInt v)
  | float _ bits => .ok bits.toNat
  | name l n => nameValue table pending l n
  | sizeof _ target => sizeofValue table pending target
  | apply l sign operands =>
    match operands with
    | first :: second :: rest => do
      let x ← value table pending first
      applyAll table pending sign x (second :: rest)
    | few => .error ⟨.fewOperands sign few.length, l⟩
  | string l _ => .error ⟨.misplacedString, l⟩
  | fill l _ _ => .error ⟨.misplacedFill, l⟩
  | type l t => .error ⟨.misplacedType t, l⟩
  | foreign l kind => .error ⟨.notAValue kind, l⟩

/-- Apply an operator to an intermediate value and each of the operands in turn. -/
def applyAll (table : SymbolTable) (pending : Pending) (sign : OperatorSign) (x : Int) :
    List Expr → Except Fault Int
  | [] => .ok x
  | operand :: rest => do
    let y ← value table pending operand
    match sign.apply x y with
    | .ok r => applyAll table pending sign r rest
    | .error cause => .error ⟨cause, operand.location⟩

end

end Expr

end AvmAssembler
