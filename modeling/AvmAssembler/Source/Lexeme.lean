import AvmAssembler.Source.Token

/-! # Lexemes

The lexical grammar as a function from the characters ahead to the lexeme at their front. A lexeme keeps the
characters it covers and the characters after it, which together are the input. A malformed lexeme covers the
characters accepted before the fault was seen, possibly none.
-/

namespace AvmAssembler

/-- Whether a fault is reported where its lexeme starts or at the first character not covered. -/
inductive FaultPlace where
  | start
  | current
  deriving DecidableEq

inductive LexemeContent where
  | token (kind : TokenKind) (text : List Char)
  | malformed (fault : LexicalFault) (place : FaultPlace)
  deriving DecidableEq

/-- A lexeme: its content, the characters it covers and the characters that follow. -/
structure Lexeme where
  content : LexemeContent
  raw : List Char
  rest : List Char
  deriving DecidableEq

namespace Lexeme

/-- Characters that separate lexemes: space, tab, line feed, carriage return, vertical tab, form feed. -/
def isBlank (c : Char) : Bool :=
  c = ' ' || c = '\t' || c = '\n' || c = '\r' || c = '\x0b' || c = '\x0c'

def isWordStart (c : Char) : Bool :=
  c.isAlpha || c = '_'

def isWordChar (c : Char) : Bool :=
  c.isAlphanum || c = '_'

/-- The character meant by the letter of an escape sequence. -/
def escape? (c : Char) : Option Char :=
  match c with
  | '0' => some '\x00'
  | 'a' => some '\x07'
  | 'b' => some '\x08'
  | 'e' => some '\x1b'
  | 'f' => some '\x0c'
  | 'n' => some '\n'
  | 'r' => some '\r'
  | 't' => some '\t'
  | 'v' => some '\x0b'
  | '\\' => some '\\'
  | '"' => some '"'
  | '\'' => some '\''
  | _ => none

/-- The tokens written with a single character of their own. -/
def single? (c : Char) : Option TokenKind :=
  match c with
  | '+' => some (.operator .add)
  | '-' => some (.operator .sub)
  | '*' => some (.operator .mul)
  | '/' => some (.operator .div)
  | '%' => some (.operator .mod)
  | '^' => some (.operator .pow)
  | '&' => some (.operator .conj)
  | '|' => some (.operator .disj)
  | ',' => some .comma
  | '=' => some .equals
  | '(' => some .openParen
  | ')' => some .closeParen
  | _ => none

def fault (f : LexicalFault) (raw rest : List Char) : Lexeme :=
  ⟨.malformed f .current, raw, rest⟩

def word (cs : List Char) : Lexeme :=
  let w := cs.takeWhile isWordChar
  ⟨.token (TokenKind.ofWord (String.ofList w)) w, w, cs.dropWhile isWordChar⟩

/-- A label or the fill sign; the dot that starts it has been seen. -/
def dotted (cs : List Char) : Lexeme :=
  match cs with
  | [] => fault .missingLabelName ['.'] cs
  | c :: rest =>
    if c = '.' then ⟨.token .fill ['.', '.'], ['.', '.'], rest⟩
    else if isWordChar c then
      let w := cs.takeWhile isWordChar
      ⟨.token .label w, '.' :: w, cs.dropWhile isWordChar⟩
    else if isBlank c then fault .missingLabelName ['.'] cs
    else fault (.labelCharacter c) ['.'] cs

/-- An integer whose sign, zero and base letter have been seen. -/
def radixDigits (radix : Radix) (seen cs : List Char) : Lexeme :=
  let raw := seen ++ cs.takeWhile radix.accepts
  let rest := cs.dropWhile radix.accepts
  match rest.head?.filter isWordChar with
  | some c => fault (.numberCharacter c radix) raw rest
  | none =>
    if raw.length = seen.length then fault (.missingDigits radix) raw rest
    else ⟨.token (.integer radix) raw, raw, rest⟩

/-- The next character is a digit of any kind. -/
def digitAhead (cs : List Char) : Bool :=
  match cs with
  | c :: _ => Text.Digit.isDigit c
  | [] => false

/-- A number with a fraction, whose point has been seen. -/
def fraction (seen cs : List Char) : Lexeme :=
  let raw := seen ++ cs.takeWhile Char.isDigit
  let rest := cs.dropWhile Char.isDigit
  let finish : Lexeme :=
    if raw.length = seen.length then fault .missingFraction raw rest
    else ⟨.token .float raw, raw, rest⟩
  match rest with
  | c :: after =>
    if isWordChar c || (c = '.' && digitAhead after) then fault (.fractionCharacter c) raw rest
    else finish
  | [] => finish

/-- A number in base ten, or one with a fraction; only its sign has been seen. -/
def decimalDigits (sign cs : List Char) : Lexeme :=
  let raw := sign ++ cs.takeWhile Text.Digit.isDigit
  let rest := cs.dropWhile Text.Digit.isDigit
  match rest with
  | c :: after =>
    if c = '.' && digitAhead after then fraction (raw ++ ['.']) after
    else if isWordChar c then fault (.numberCharacter c .decimal) raw rest
    else ⟨.token (.integer .decimal) raw, raw, rest⟩
  | [] => ⟨.token (.integer .decimal) raw, raw, rest⟩

/-- A number whose sign, if any, has been seen. -/
def unsigned (sign cs : List Char) : Lexeme :=
  match cs with
  | '0' :: c :: rest =>
    match Radix.ofLetter? c with
    | some radix => radixDigits radix (sign ++ ['0', c]) rest
    | none => decimalDigits sign cs
  | _ => decimalDigits sign cs

/-- A number; a minus sign at the front belongs to it. -/
def number (cs : List Char) : Lexeme :=
  match cs with
  | '-' :: rest => unsigned ['-'] rest
  | _ => unsigned [] cs

/-- The inside of a string literal up to its closing quote, as decoded text, covered characters and rest. A
fault takes the place of the text. -/
structure StringBody where
  text : Except (LexicalFault × FaultPlace) (List Char)
  raw : List Char
  rest : List Char

/-- Put a decoded character and the characters that wrote it in front. -/
def StringBody.push (c : Char) (written : List Char) (b : StringBody) : StringBody :=
  ⟨b.text.map (c :: ·), written ++ b.raw, b.rest⟩

/-- Read a string literal after its opening quote. -/
def stringBody : List Char → StringBody
  | [] => ⟨.error (.unterminatedString, .start), [], []⟩
  | '"' :: rest => ⟨.ok [], ['"'], rest⟩
  | '\n' :: rest => ⟨.error (.unterminatedString, .start), [], '\n' :: rest⟩
  | '\\' :: [] => ⟨.error (.unterminatedEscape, .current), ['\\'], []⟩
  | '\\' :: '\n' :: rest => ⟨.error (.unterminatedEscape, .current), ['\\'], '\n' :: rest⟩
  | '\\' :: c :: rest =>
    match escape? c with
    | some d => (stringBody rest).push d ['\\', c]
    | none => ⟨.error (.unknownEscape c, .current), ['\\'], c :: rest⟩
  | c :: rest => (stringBody rest).push c [c]

/-- A string literal whose opening quote has been seen. -/
def string (cs : List Char) : Lexeme :=
  let body := stringBody cs
  match body.text with
  | .ok text => ⟨.token .string text, '"' :: body.raw, body.rest⟩
  | .error (f, place) => ⟨.malformed f place, '"' :: body.raw, body.rest⟩

/-- The closing quote of a character literal. -/
def closeCharacter (value : Char) (raw rest : List Char) : Lexeme :=
  match rest with
  | '\'' :: after => ⟨.token .character [value], raw ++ ['\''], after⟩
  | [] => fault .unterminatedCharacter raw rest
  | '\n' :: _ => fault .unterminatedCharacter raw rest
  | _ => fault .crowdedCharacter raw rest

/-- A character literal whose opening quote has been seen. -/
def character (cs : List Char) : Lexeme :=
  match cs with
  | [] => fault .unterminatedCharacter ['\''] cs
  | '\n' :: _ => fault .unterminatedCharacter ['\''] cs
  | '\'' :: _ => fault .emptyCharacter ['\''] cs
  | '\\' :: [] => fault .unterminatedEscape ['\'', '\\'] []
  | '\\' :: '\n' :: rest => fault .unterminatedEscape ['\'', '\\'] ('\n' :: rest)
  | '\\' :: c :: rest =>
    match escape? c with
    | some d => closeCharacter d ['\'', '\\', c] rest
    | none => fault (.unknownEscape c) ['\'', '\\'] (c :: rest)
  | c :: rest =>
    if c.toNat < 0x80 then closeCharacter c ['\'', c] rest
    else fault .wideCharacter ['\'', c] rest

/-- A shift operator, written with the same angle twice. -/
def angle (c : Char) (operator : Operator) (cs : List Char) : Lexeme :=
  match cs with
  | d :: rest =>
    if d = c then ⟨.token (.operator operator) [c, c], [c, c], rest⟩ else fault (.loneAngle c) [c] cs
  | [] => fault (.loneAngle c) [c] cs

/-- The lexeme at the front of a non-empty input that does not start with a gap. -/
def scan (c : Char) (cs : List Char) : Lexeme :=
  if isWordStart c then word (c :: cs)
  else if Text.Digit.isDigit c || (c = '-' && digitAhead cs) then number (c :: cs)
  else if c = '.' then dotted cs
  else if c = '"' then string cs
  else if c = '\'' then character cs
  else if c = '<' then angle c .shiftLeft cs
  else if c = '>' then angle c .shiftRight cs
  else
    match single? c with
    | some kind => ⟨.token kind [c], [c], cs⟩
    | none => fault (.unexpectedCharacter c) [] (c :: cs)

end Lexeme

end AvmAssembler
