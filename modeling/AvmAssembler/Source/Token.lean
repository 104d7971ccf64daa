import AvmAssembler.ElementType
import AvmAssembler.Location
import AvmAssembler.Number.Radix
import AvmAssembler.Operator
import AvmAssembler.Text.Quoted

/-! # Tokens

A token has a kind, a text and a location. The text is the lexeme itself for names and numbers and the decoded
value for string and character literals. A stream of tokens ends either with the input or with malformed input.
-/

namespace AvmAssembler

/-- The words with a meaning of their own, element types aside. -/
inductive Keyword where
  | declareVariable
  | declareConstant
  | inclusion
  | embedding
  | sizeof
  deriving DecidableEq, Inhabited

namespace Keyword

def all : List Keyword :=
  [declareVariable, declareConstant, inclusion, embedding, sizeof]

def word : Keyword → String
  | declareVariable => "let"
  | declareConstant => "mac"
  | inclusion => "include"
  | embedding => "embed"
  | sizeof => "sizeof"

def ofWord? (s : String) : Option Keyword :=
  all.find? fun k => k.word = s

end Keyword

inductive TokenKind where
  | name
  | label
  | integer (radix : Radix)
  | float
  | character
  | string
  | comma
  | equals
  | openParen
  | closeParen
  | fill
  | keyword (keyword : Keyword)
  | type (type : ElementType)
  | operator (operator : Operator)
  deriving DecidableEq, Inhabited

namespace TokenKind

/-- The kind of a word: keyword, element type or name. -/
def ofWord (s : String) : TokenKind :=
  match Keyword.ofWord? s with
  | some k => keyword k
  | none =>
    match ElementType.ofName? s with
    | some t => type t
    | none => name

def displayName : TokenKind → String
  | name => "IDENTIFIER"
  | label => "LABEL"
  | integer .decimal => "DECIMAL"
  | integer .hexadecimal => "HEXADECIMAL"
  | integer .octal => "OCTAL"
  | integer .binary => "BINARY"
  | float => "FLOAT"
  | character => "CHARACTER"
  | string => "STRING"
  | comma => "COMMA"
  | equals => "EQUALS"
  | openParen => "LPAREN"
  | closeParen => "RPAREN"
  | fill => "FILL"
  | keyword .declareVariable => "LET"
  | keyword .declareConstant => "MAC"
  | keyword .inclusion => "INCLUDE"
  | keyword .embedding => "EMBED"
  | keyword .sizeof => "SIZEOF"
  | type .byte => "TYPE_BYTE"
  | type .char => "TYPE_CHAR"
  | type .i16 => "TYPE_I16"
  | type .i32 => "TYPE_I32"
  | type .i64 => "TYPE_I64"
  | type .f64 => "TYPE_F64"
  | operator .add => "PLUS"
  | operator .sub => "MINUS"
  | operator .mul => "STAR"
  | operator .div => "SLASH"
  | operator .mod => "PERCENT"
  | operator .pow => "CARET"
  | operator .conj => "AMPERSAND"
  | operator .disj => "PIPE"
  | operator .shiftRight => "RSHIFT"
  | operator .shiftLeft => "LSHIFT"

end TokenKind

structure Token where
  kind : TokenKind
  text : String
  location : Location
  deriving DecidableEq, Inhabited

inductive LexicalFault where
  | unexpectedCharacter (c : Char)
  | loneAngle (c : Char)
  | missingLabelName
  | labelCharacter (c : Char)
  | numberCharacter (c : Char) (radix : Radix)
  | fractionCharacter (c : Char)
  | missingDigits (radix : Radix)
  | missingFraction
  | unterminatedEscape
  | unknownEscape (c : Char)
  | unterminatedString
  | unterminatedCharacter
  | emptyCharacter
  | wideCharacter
  | crowdedCharacter
  deriving DecidableEq

def LexicalFault.message : LexicalFault → String
  | unexpectedCharacter c => s!"unexpected character '{c}'"
  | loneAngle c => s!"expected '{c}{c}' after '{c}'"
  | missingLabelName => "expected label name after '.'"
  | labelCharacter c => s!"unexpected character '{c}' in label name"
  | numberCharacter c r => s!"unexpected character '{c}' in {r.name} number"
  | fractionCharacter c => s!"unexpected character '{c}' in float number"
  | missingDigits r => s!"expected {r.name} digits"
  | missingFraction => "expected float digits"
  | unterminatedEscape => "unterminated escape sequence"
  | unknownEscape c => s!"unknown escape sequence '\\{c}'"
  | unterminatedString => "unterminated string literal"
  | unterminatedCharacter => "unterminated character literal"
  | emptyCharacter => "empty character literal"
  | wideCharacter => "character literal must be a single byte"
  | crowdedCharacter => "character literal must contain exactly one character"

/-- Where and how a stream of tokens ends. -/
inductive Ending where
  | complete (location : Location)
  | malformed (fault : LexicalFault) (location : Location)
  deriving DecidableEq

def Ending.location : Ending → Location
  | complete l => l
  | malformed _ l => l

/-- One step of a scan: a token, or the end of the stream. -/
inductive Scanned where
  | token (token : Token)
  | ending (ending : Ending)
  deriving DecidableEq

namespace Scanned

def kindName : Scanned → String
  | token t => t.kind.displayName
  | ending (.complete _) => "EOF"
  | ending (.malformed _ _) => "ERROR"

def text : Scanned → String
  | token t => t.text
  | ending (.complete _) => ""
  | ending (.malformed f _) => f.message

def location : Scanned → Location
  | token t => t.location
  | ending e => e.location

def display (s : Scanned) : String :=
  let place := s!"{s.location.line}:{s.location.column}"
  match s with
  | ending (.complete _) => s!"Token({s.kindName}, {place})"
  | _ => s!"Token({s.kindName}, {Text.Quoted.text s.text}, {place})"

end Scanned

end AvmAssembler
