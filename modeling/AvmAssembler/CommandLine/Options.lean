import AvmAssembler.Number.Numeral
import AvmAssembler.Text.Blank

/-! # Options of the command

The words of a command line as options and operands. Options may stand anywhere before the word `--`; short ones may be
joined behind one dash, and a value may follow an option in the same word or in the next. Where an option is repeated,
its last value counts; only search directories add up.
-/

namespace AvmAssembler.CommandLine

/-- Information that may be asked for instead of a task. -/
inductive Inquiry where
  | version
  | help
  deriving DecidableEq

inductive Flag where
  | output
  | executable
  | noExecutable
  | noWarnings
  | maxErrors
  | searchPath
  | disassemble
  | verbose
  | version
  | help
  deriving DecidableEq

namespace Flag

def takesValue : Flag → Bool
  | output | maxErrors | searchPath => true
  | _ => false

def ofLong? (name : String) : Option Flag :=
  match name with
  | "--output" => some output
  | "--executable" => some executable
  | "--no-executable" => some noExecutable
  | "--no-warnings" => some noWarnings
  | "--max-errors" => some maxErrors
  | "--include" => some searchPath
  | "--disasm" => some disassemble
  | "--verbose" => some verbose
  | "--version" => some version
  | "--help" => some help
  | _ => none

def ofLetter? (c : Char) : Option Flag :=
  match c with
  | 'o' => some output
  | 'e' => some executable
  | 'm' => some maxErrors
  | 'I' => some searchPath
  | 'd' => some disassemble
  | 'v' => some verbose
  | _ => none

end Flag

structure Options where
  operands : List String := []
  output : Option String := none
  executable : Bool := true
  hideWarnings : Bool := false
  maxErrors : Option String := none
  searchPaths : List String := []
  disassemble : Bool := false
  verbose : Bool := false
  /-- The first request for information, which comes before everything else. -/
  inquiry : Option Inquiry := none
  /-- The options with a value in the order in which they were first used. -/
  used : List Flag := []
  deriving DecidableEq

namespace Options

def apply (o : Options) : Flag → Options
  | .executable => { o with executable := true }
  | .noExecutable => { o with executable := false }
  | .noWarnings => { o with hideWarnings := true }
  | .disassemble => { o with disassemble := true }
  | .verbose => { o with verbose := true }
  | .version => { o with inquiry := o.inquiry.or (some .version) }
  | .help => { o with inquiry := o.inquiry.or (some .help) }
  | .output | .maxErrors | .searchPath => o

def applyValue (o : Options) (flag : Flag) (value : String) : Options :=
  let o := { o with used := if o.used.contains flag then o.used else o.used ++ [flag] }
  match flag with
  | .output => { o with output := some value }
  | .maxErrors => { o with maxErrors := some value }
  | .searchPath => { o with searchPaths := o.searchPaths ++ [value] }
  | _ => o

/-- What a word of options leaves to be done. -/
inductive Step where
  | done (options : Options)
  /-- The value of the option is the next word. -/
  | awaiting (options : Options) (flag : Flag)
  | invalid

/-- Apply the letters behind one dash. -/
def letters (o : Options) : List Char → Step
  | [] => .done o
  | c :: rest =>
    match Flag.ofLetter? c with
    | none => .invalid
    | some flag =>
      if !flag.takesValue then letters (o.apply flag) rest
      else if rest.isEmpty then .awaiting o flag
      else .done (o.applyValue flag (String.ofList rest))

def word (o : Options) (w : String) : Step :=
  let cs := w.toList
  let name := String.ofList (cs.takeWhile (· ≠ '='))
  let value? := if cs.contains '=' then some (String.ofList ((cs.dropWhile (· ≠ '=')).drop 1)) else none
  match Flag.ofLong? name with
  | some flag =>
    match flag.takesValue, value? with
    | true, some value => .done (o.applyValue flag value)
    | true, none => .awaiting o flag
    | false, some _ => .invalid
    | false, none => .done (o.apply flag)
  | none => if cs.take 2 = ['-', '-'] then .invalid else letters o (cs.drop 1)

def applyWords (o : Options) : List String → Option Options
  | [] => some o
  | w :: rest =>
    if w = "--" then some { o with operands := o.operands ++ rest }
    else if w.toList.head? = some '-' && 1 < w.length then
      match o.word w with
      | .done o => o.applyWords rest
      | .awaiting o flag =>
        match rest with
        | value :: rest => (o.applyValue flag value).applyWords rest
        | [] => none
      | .invalid => none
    else { o with operands := o.operands ++ [w] }.applyWords rest

def ofWords (words : List String) : Option Options :=
  applyWords {} words

end Options

def trimBlanks (cs : List Char) : List Char :=
  ((cs.dropWhile Text.isWhiteSpace).reverse.dropWhile Text.isWhiteSpace).reverse

/-- The value of digits, in which single underscores may stand between digits. -/
def digitsValue? (acc : Nat) (digitBefore : Bool) : List Char → Option Nat
  | [] => if digitBefore then some acc else none
  | c :: rest =>
    match Text.Digit.value? c with
    | some d => digitsValue? (acc * 10 + d) true rest
    | none => if c = '_' && digitBefore then digitsValue? acc false rest else none

/-- The value of digits that are not too many for an integer. -/
def magnitude? (cs : List Char) : Option Nat :=
  if Numeral.digitLimit < cs.countP (· ≠ '_') then none else digitsValue? 0 false cs

/-- Read an integer with an optional sign. -/
def integer? (s : String) : Option Int :=
  match trimBlanks s.toList with
  | '-' :: rest => (magnitude? rest).map fun n => -(n : Int)
  | '+' :: rest => (magnitude? rest).map fun n => (n : Int)
  | cs => (magnitude? cs).map fun n => (n : Int)

end AvmAssembler.CommandLine
