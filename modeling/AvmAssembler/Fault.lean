import AvmAssembler.Files.FileError
import AvmAssembler.Number.Numeral
import AvmAssembler.Source.Token
import AvmAssembler.SymbolKind
import AvmAssembler.Text.Utf8

/-! # Faults

Everything that can be wrong with a program, as causes. A cause determines its category, its wording, its hint
and its secondary notes; a fault is a cause at a place. Faults of a fatal category end the phase in which they
arise, the others are recorded and the phase goes on.
-/

namespace AvmAssembler

inductive FaultCategory where
  | general
  | grammar
  | undefinedSymbol
  | duplicateSymbol
  | expression
  | instruction
  | fatal
  | lexical
  | inclusion
  | embedding
  | output
  deriving DecidableEq, Inhabited

/-- Faults of these categories end the phase. -/
def FaultCategory.isFatal : FaultCategory → Bool
  | fatal | lexical | inclusion | embedding | output => true
  | general | grammar | undefinedSymbol | duplicateSymbol | expression | instruction => false

/-- What the grammar asks for at a place. -/
inductive Expected where
  | statement
  | expression
  | identifier
  | type
  | equals
  | filePath
  | sizeofTarget
  | operatorOrSizeof
  deriving DecidableEq

def Expected.words : Expected → String
  | statement => "statement"
  | expression => "expression"
  | identifier => "identifier"
  | type => "type"
  | equals => "'='"
  | filePath => "file path string"
  | sizeofTarget => "type or identifier after 'sizeof'"
  | operatorOrSizeof => "operator or 'sizeof' after '('"

inductive Found where
  | endOfFile
  | stringLiteral
  | mnemonic (name : String)
  | other (text : String)
  deriving DecidableEq

def Found.words : Found → String
  | endOfFile => "end of file"
  | stringLiteral => "string literal"
  | mnemonic name => s!"instruction '{name}'"
  | other text => s!"'{text}'"

inductive InclusionFailure where
  | notFound
  | circular
  | undecodable (cause : Text.Utf8.Malformed)
  | other (reason : String)
  deriving DecidableEq

def InclusionFailure.reason : InclusionFailure → String
  | notFound => "file not found"
  | circular => "circular include"
  | undecodable m => m.message
  | other reason => reason

inductive EmbeddingFailure where
  | notFound
  | unreadable (error : FileError)
  | other (reason : String)
  deriving DecidableEq

def EmbeddingFailure.reason : EmbeddingFailure → String
  | notFound => "file not found"
  | unreadable e => e.message
  | other reason => reason

/-- A secondary message at a place of its own, if it has one. -/
abbrev Note := Option Location × String

/-- The causes of faults. `stated` is a fault worded by the caller. -/
inductive Cause where
  | lexical (fault : LexicalFault)
  | unexpected (expected : Expected) (found : Found)
  | unclosedForm (opened : Location)
  | trailing (found : Found)
  | wideInteger (text : String)
  | unknownMnemonic (name : String)
  | noSuchInstruction (name : String)
  | missingArgument (name : String)
  | unwantedArgument (name : String)
  | notAStatement (kind : String)
  | misplacedString
  | misplacedFill
  | misplacedType (type : ElementType)
  | notAValue (kind : String)
  | fewOperands (sign : OperatorSign) (count : Nat)
  | divisionByZero
  | moduloByZero
  | unknownOperator (text : String)
  | powerRange
  | zeroToNegative
  | negativeShift
  | sizeofNonVariable (kind : SymbolKind) (name : String) (defined : Option Location)
  | negativeFill
  | hugeFill (limit : Nat)
  | undeclared (name : String) (similar : List String)
  | usedEarly (name : String) (declared : Location)
  | redefinition (name : String) (first : Option Location)
  | inclusion (path : String) (failure : InclusionFailure) (notes : List Note) (searched : List String)
  | embedding (path : String) (failure : EmbeddingFailure)
  | output (path : String) (error : FileError)
  | stated (category : FaultCategory) (message : String) (hint : Option String) (notes : List Note)
  deriving DecidableEq

namespace Cause

def category : Cause → FaultCategory
  | lexical _ => .lexical
  | unexpected .. | unclosedForm _ | trailing _ | wideInteger _ => .grammar
  | unknownMnemonic _ | noSuchInstruction _ | missingArgument _ | unwantedArgument _ => .instruction
  | notAStatement _ => .general
  | misplacedString | misplacedFill | misplacedType _ | notAValue _ | fewOperands .. | divisionByZero
  | moduloByZero | unknownOperator _ | powerRange | zeroToNegative | negativeShift | sizeofNonVariable .. | negativeFill
  | hugeFill _ => .expression
  | undeclared .. | usedEarly .. => .undefinedSymbol
  | redefinition .. => .duplicateSymbol
  | inclusion .. => .inclusion
  | embedding .. => .embedding
  | output .. => .output
  | stated category .. => category

def message : Cause → String
  | lexical f => f.message
  | unexpected expected found => s!"expected {expected.words}, got {found.words}"
  | unclosedForm _ => "expected matching ')'"
  | trailing found => s!"unexpected {found.words} after expression"
  | wideInteger text => s!"integer literal '{text}' does not fit in 64 bits"
  | unknownMnemonic name => s!"unknown instruction '{name}'"
  | noSuchInstruction name => s!"unknown instruction '{name}'"
  | missingArgument name => s!"'{name}' expects an argument"
  | unwantedArgument name => s!"'{name}' takes no argument"
  | notAStatement kind => s!"unexpected {kind} statement"
  | misplacedString => "string literal is only allowed as a 'let' initializer"
  | misplacedFill => "fill expression is only allowed as a 'let' initializer"
  | misplacedType t => s!"type '{t.name}' is not a value"
  | notAValue kind => s!"cannot evaluate {kind}"
  | fewOperands sign count => s!"'{sign.text}' expects at least 2 arguments, got {count}"
  | divisionByZero => "division by zero"
  | moduloByZero => "modulo by zero"
  | unknownOperator text => s!"unknown operator '{text}'"
  | powerRange => "result of '^' is out of range"
  | zeroToNegative => "0.0 cannot be raised to a negative power"
  | negativeShift => "negative shift count"
  | sizeofNonVariable kind name _ => s!"sizeof cannot be applied to {kind.word} '{name}'"
  | negativeFill => "fill count must not be negative"
  | hugeFill _ => "fill count too large"
  | undeclared name _ => s!"undeclared identifier '{name}'"
  | usedEarly name _ => s!"'{name}' used before its declaration"
  | redefinition name _ => s!"redefinition of '{name}'"
  | inclusion path failure _ _ => s!"cannot include '{path}': {failure.reason}"
  | embedding path failure => s!"cannot embed '{path}': {failure.reason}"
  | output path error => s!"cannot write '{path}': {error.message}"
  | stated _ message _ _ => message

def suggestionLimit : Nat := 3

/-- How to mend the fault. -/
def hint : Cause → Option String
  | unexpected .type _ => some "types are byte, char, i16, i32, i64 and f64"
  | unknownMnemonic name => some s!"use 'psh {name}' to push the value of a symbol"
  | misplacedType t => some s!"use (sizeof {t.name}) for its size"
  | hugeFill limit => some s!"the memory segment is limited to {limit} bytes"
  | undeclared _ similar =>
    if similar.isEmpty then none
    else
      let names := ", ".intercalate ((similar.take suggestionLimit).map fun s => s!"'{s}'")
      some s!"did you mean {names}?"
  | inclusion _ _ _ searched =>
    if searched.isEmpty then none
    else
      let places := ", ".intercalate searched
      some s!"searched in: {places}"
  | stated _ _ hint _ => hint
  | _ => none

def notes : Cause → List Note
  | unclosedForm opened => [(some opened, "opened here")]
  | sizeofNonVariable _ name defined => [(defined, s!"'{name}' defined here")]
  | usedEarly name declared => [(some declared, s!"'{name}' declared here")]
  | redefinition name (some first) => [(some first, s!"'{name}' previously defined here")]
  | inclusion _ _ notes _ => notes
  | stated _ _ _ notes => notes
  | _ => []

end Cause

/-- A cause at a place, if it has one. -/
structure Fault where
  cause : Cause
  location : Option Location
  deriving DecidableEq

namespace Fault

def isFatal (f : Fault) : Bool :=
  f.cause.category.isFatal

def message (f : Fault) : String :=
  f.cause.message

/-- The hint of a fault; an empty one is none. -/
def shownHint (f : Fault) : Option String :=
  f.cause.hint.filter fun h => !h.isEmpty

/-- The fault on a line of its own, with its hint on the next. -/
def summary (f : Fault) : String :=
  let head :=
    match f.location with
    | some l => s!"{l.written}: error: {f.message}"
    | none => s!"error: {f.message}"
  match f.shownHint with
  | some h => s!"{head}\nhint: {h}"
  | none => head

end Fault

end AvmAssembler
