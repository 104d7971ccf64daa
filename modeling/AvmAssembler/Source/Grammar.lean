import AvmAssembler.Source.Phrase
import AvmAssembler.Source.Statement

/-! # The grammar

Readers for expressions and statements with one token of lookahead. Statements follow one another without a
terminator, so an operand list ends at the first token that cannot start an expression. Where the tokens ahead end in
malformed input, the fault is raised when the last token before it is used up.
-/

namespace AvmAssembler.Grammar

/-- What stands ahead, for messages. -/
def found : List Token → Found
  | [] => .endOfFile
  | t :: _ =>
    if t.kind = .string then .stringLiteral
    else if t.kind = .name && InstructionSet.isMnemonic t.text then .mnemonic t.text
    else .other t.text

def place (ending : Ending) : List Token → Location
  | [] => ending.location
  | t :: _ => t.location

def unexpected (ending : Ending) (expected : Expected) (tokens : List Token) : Fault :=
  ⟨.unexpected expected (found tokens), some (place ending tokens)⟩

/-- Use up a token. The token after it has to be well formed. -/
def take (ending : Ending) (t : Token) (rest : List Token) : Phrase Token (t :: rest) :=
  match rest, ending with
  | [], .malformed f l => ⟨.refused ⟨.lexical f, some l⟩ [], Nat.zero_le _⟩
  | rest, _ => ⟨.read t rest, Nat.lt_succ_self _⟩

def accept (ending : Ending) (test : Token → Bool) (fault : Fault) (tokens : List Token) :
    Phrase Token tokens :=
  match tokens with
  | t :: rest => if test t then take ending t rest else .refuse fault
  | [] => .refuse fault

def expect (ending : Ending) (expected : Expected) (test : Token → Bool) (tokens : List Token) :
    Phrase Token tokens :=
  accept ending test (unexpected ending expected tokens) tokens

/-- A name that may be declared or referred to; mnemonics are not among them. -/
def isPlainName (t : Token) : Bool :=
  t.kind = .name && !InstructionSet.isMnemonic t.text

def typeOf? (t : Token) : Option ElementType :=
  match t.kind with
  | .type ty => some ty
  | _ => none

def startsExpression (t : Token) : Bool :=
  match t.kind with
  | .name => !InstructionSet.isMnemonic t.text
  | .integer _ | .float | .character | .string | .type _ | .openParen => true
  | _ => false

def expressionAhead : List Token → Bool
  | t :: _ => startsExpression t
  | [] => false

/-- The value of an integer literal, which has to fit into a word, signed or unsigned. -/
def integerLiteral (radix : Radix) (t : Token) : Except (Fault ⊕ NumeralError) Expr :=
  match Numeral.integer radix t.text with
  | .error e => .error (.inr e)
  | .ok v =>
    if Numeral.least ≤ v ∧ v ≤ Numeral.greatest then .ok (.integer (some t.location) v)
    else .error (.inl ⟨.wideInteger t.text, some t.location⟩)

/-- The expression written with a single token. -/
def atom (t : Token) : Except (Fault ⊕ NumeralError) Expr :=
  match t.kind with
  | .integer radix => integerLiteral radix t
  | .float =>
    match Numeral.float t.text with
    | .ok bits => .ok (.float (some t.location) bits)
    | .error e => .error (.inr e)
  | .character => .ok (.integer (some t.location) ((t.text.toList.head?.map Char.toNat).getD 0))
  | .string => .ok (.string (some t.location) t.text)
  | .type ty => .ok (.type (some t.location) ty)
  | _ => .ok (.name (some t.location) t.text)

def closing (ending : Ending) (opened : Location) (tokens : List Token) : Phrase Token tokens :=
  accept ending (fun t => t.kind = .closeParen)
    ⟨.unclosedForm opened, some (place ending tokens)⟩ tokens

/-- A type or a name after `sizeof`. -/
def sizeofTarget (ending : Ending) (tokens : List Token) : Phrase SizeofTarget tokens :=
  match tokens with
  | t :: rest =>
    match t.kind with
    | .type ty => (take ending t rest).map fun t => .type (some t.location) ty
    | .name => (expect ending .identifier isPlainName (t :: rest)).map fun t =>
      .name (some t.location) t.text
    | _ => .refuse (unexpected ending .sizeofTarget (t :: rest))
  | [] => .refuse (unexpected ending .sizeofTarget [])

mutual

def expression (ending : Ending) (tokens : List Token) : Phrase Expr tokens :=
  match tokens with
  | [] => .refuse (unexpected ending .expression [])
  | t :: rest =>
    if t.kind = .openParen then
      (take ending t rest).bind fun _ inner _ => form ending t.location inner
    else if startsExpression t then (take ending t rest).check atom
    else .refuse (unexpected ending .expression (t :: rest))
termination_by (tokens.length, 0)

/-- A form after its opening parenthesis: `sizeof` with a target, or an operator with operands. -/
def form (ending : Ending) (opened : Location) (tokens : List Token) : Phrase Expr tokens :=
  match tokens with
  | [] => .refuse (unexpected ending .operatorOrSizeof [])
  | t :: rest =>
    match t.kind with
    | .keyword .sizeof =>
      (take ending t rest).bind fun _ inner _ =>
        (sizeofTarget ending inner).bind fun target after _ =>
          (closing ending opened after).map fun _ => .sizeof (some opened) target
    | .operator operator =>
      (take ending t rest).bind fun _ inner _ =>
        (operands ending opened inner).map fun es => .apply (some opened) (.known operator) es
    | _ => .refuse (unexpected ending .operatorOrSizeof (t :: rest))
termination_by (tokens.length, 0)

/-- Operands up to and with the closing parenthesis. -/
def operands (ending : Ending) (opened : Location) (tokens : List Token) :
    Phrase (List Expr) tokens :=
  if expressionAhead tokens then
    (expression ending tokens).bind fun e rest _ => (operands ending opened rest).map (e :: ·)
  else (closing ending opened tokens).map fun _ => []
termination_by (tokens.length, 1)

end

/-- An expression, or a value to be repeated. -/
def initializer (ending : Ending) (tokens : List Token) : Phrase Expr tokens :=
  (expression ending tokens).bindIf (fun rest => rest.head?.any fun t => t.kind = .fill)
    (fun value rest _ =>
      (expect ending .expression (fun t => t.kind = .fill) rest).bind fun _ rest _ =>
        (expression ending rest).map fun count => .fill value.location value count)
    id

/-- Initializers between commas. -/
def initializers (ending : Ending) (tokens : List Token) : Phrase (List Expr) tokens :=
  (initializer ending tokens).bindIf (fun rest => rest.head?.any fun t => t.kind = .comma)
    (fun value rest _ =>
      (expect ending .expression (fun t => t.kind = .comma) rest).bind fun _ rest _ =>
        (initializers ending rest).map (value :: ·))
    fun value => [value]
termination_by tokens.length

def declaredName (ending : Ending) (tokens : List Token) : Phrase String tokens :=
  (expect ending .identifier isPlainName tokens).map Token.text

def elementType (ending : Ending) (tokens : List Token) : Phrase ElementType tokens :=
  (expect ending .type (fun t => (typeOf? t).isSome) tokens).map fun t => (typeOf? t).getD .byte

def equals (ending : Ending) (tokens : List Token) : Phrase Token tokens :=
  expect ending .equals (fun t => t.kind = .equals) tokens

/-- The path of a file, with its place. -/
def filePath (ending : Ending) (tokens : List Token) : Phrase Token tokens :=
  expect ending .filePath (fun t => t.kind = .string) tokens

/-- One item of a unit: a statement, or the inclusion of a file. -/
inductive Item where
  | statement (statement : Statement)
  /-- An inclusion with the places of its keyword and of its path. -/
  | inclusion (keyword : Location) (path : String) (location : Location)

def item (ending : Ending) (t : Token) (rest : List Token) : Phrase Item (t :: rest) :=
  match t.kind with
  | .name =>
    match InstructionSet.byName? t.text with
    | none => .refuse ⟨.unknownMnemonic t.text, some t.location⟩
    | some m =>
      if m.takesArgument then
        (take ending t rest).bind fun _ rest _ =>
          (expression ending rest).map fun e => .statement (.instruction (some t.location) t.text (some e))
      else (take ending t rest).map fun t => .statement (.instruction (some t.location) t.text none)
  | .label => (take ending t rest).map fun t => .statement (.label (some t.location) t.text)
  | .keyword .declareVariable =>
    (take ending t rest).bind fun _ rest _ =>
      (declaredName ending rest).bind fun name rest _ =>
        (elementType ending rest).bind fun ty rest _ =>
          (equals ending rest).bind fun _ rest _ =>
            (initializers ending rest).map fun es => .statement (.region (some t.location) name ty es)
  | .keyword .declareConstant =>
    (take ending t rest).bind fun _ rest _ =>
      (declaredName ending rest).bind fun name rest _ =>
        (equals ending rest).bind fun _ rest _ =>
          (expression ending rest).map fun e => .statement (.constant (some t.location) name e)
  | .keyword .embedding =>
    (take ending t rest).bind fun _ rest _ =>
      (declaredName ending rest).bind fun name rest _ =>
        (filePath ending rest).map fun p => .statement (.embedding (some t.location) name p.text)
  | .keyword .inclusion =>
    (take ending t rest).bind fun _ rest _ =>
      (filePath ending rest).map fun p => .inclusion t.location p.text p.location
  | _ =>
    if startsExpression t then
      (expression ending (t :: rest)).map fun e =>
        .statement (.instruction (some t.location) InstructionSet.push (some e))
    else .refuse (unexpected ending .statement (t :: rest))

end AvmAssembler.Grammar
