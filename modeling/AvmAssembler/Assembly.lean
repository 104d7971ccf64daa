import AvmAssembler.Files.FileTree
import AvmAssembler.Image
import AvmAssembler.Journal
import AvmAssembler.Source.Expr.Value
import AvmAssembler.Source.Statement
import AvmAssembler.Source.Unit

/-! # Assemblies

An assembly is a program on its way to an image: the symbols, memory and records so far. The first pass over the
statements binds every label to the index of the instruction after it; the second pass generates memory and records in
source order, binding constants and regions as it meets them. A statement with a fault is recorded and leaves memory
and records as they were; its name stays bound, so that later uses do not add faults of their own.
-/

namespace AvmAssembler

structure Assembly where
  symbols : SymbolTable := {}
  entryPoint : Option Int := none
  memory : List UInt8 := []
  records : List Record := []
  journal : Journal := {}

/-- What an assembly depends on besides its program. -/
structure AssemblySettings where
  surroundings : Surroundings
  entryLabel : String := "entry"

/-- A pass over a program, which may stop early. -/
abbrev Assembling := EStateM Abort Assembly

/-- The processing of one statement as far as it looks for no file, which may fail with a fault. -/
abbrev Processing := EStateM Fault Assembly

abbrev Attempt := EStateM Obstacle Assembly

namespace Assembly

/-- The greatest size of a fill in bytes. -/
def memoryLimit : Nat := 0x40000000

def reporting {α : Type} (r : Reporting α) : Assembling α := fun a =>
  match r a.journal with
  | .ok x j => .ok x { a with journal := j }
  | .error e j => .error e { a with journal := j }

def orFault {α : Type} : Except Fault α → Processing α
  | .ok x => pure x
  | .error fault => throw fault

/-! ## First pass -/

/-- Bind labels, counting instructions from `address`. The names in `declared` belong to the constants and regions seen
so far, which are bound in the second pass. -/
def bindLabels (address : Nat) (declared : Pending) : List Statement → Assembling Nat
  | [] => pure address
  | s :: rest =>
    match s with
    | .label l name => do
      match declared.lookup name with
      | some first => reporting (Journal.report ⟨.redefinition name first, l⟩)
      | none =>
        match (← get).symbols.define name ⟨l, .label address⟩ with
        | .ok symbols => modify fun a => { a with symbols := symbols }
        | .error fault => reporting (Journal.report fault)
      bindLabels address declared rest
    | .instruction .. => bindLabels (address + 1) declared rest
    | _ =>
      match s.lateName? with
      | some name =>
        if (declared.lookup name).isSome then bindLabels address declared rest
        else bindLabels address (declared ++ [(name, s.location)]) rest
      | none => bindLabels address declared rest

/-- The first pass: bind the labels and find the entry point. The answer is whether code can be generated. -/
def resolve (settings : AssemblySettings) (program : Program) : Assembling Bool := do
  let address ← bindLabels 0 [] program.statements
  match (← get).symbols.get? settings.entryLabel with
  | some ⟨_, .label index⟩ =>
    modify fun a => { a with entryPoint := some index }
    reporting (Journal.note (.resolved (← get).symbols.size address index))
    pure !(← get).journal.diagnostics.happened
  | _ =>
    reporting <| Journal.recording <| Diagnostics.record
      ⟨.error, s!"program entry point label '{settings.entryLabel}' not found", none⟩
    pure false

/-! ## Second pass -/

/-- The word fits an element of some bits, unsigned or as a negative number. -/
def fits (bits word : Nat) : Bool :=
  word < Nat.pow 2 bits ||
    (-(Nat.pow 2 (bits - 1) : Int) ≤ Word.toSigned word && Word.toSigned word < 0)

/-- The element that stores a word, with a warning if it loses something. -/
def element (word : Nat) (type : ElementType) (location : Option Location) :
    Processing (List UInt8) := do
  let bits := 8 * type.size
  if bits < Word.width && !fits bits word then
    let message :=
      s!"value {Word.toSigned word} does not fit in {type.name}, truncated to {word % Nat.pow 2 bits}"
    modify fun a =>
      { a with
        journal :=
          { a.journal with
            diagnostics := a.journal.diagnostics.warn ⟨.warning, message, location⟩ } }
  pure (bigEndian type.size word)

def elements (type : ElementType) (location : Option Location) : List Nat → Processing (List UInt8)
  | [] => pure []
  | word :: rest => do
    let bytes ← element word type location
    let more ← elements type location rest
    pure (bytes ++ more)

/-- The value of an expression among the symbols so far. No size of an assembly is negative, and so no value is. -/
def valueOf (pending : Pending) (e : Expr) : Processing Nat := do
  return (← orFault (e.value (← get).symbols pending)).toNat

def initializerBytes (pending : Pending) (type : ElementType) (e : Expr) : Processing (List UInt8) :=
  match e with
  | .fill _ value count => do
    let word ← valueOf pending value
    let bytes ← element word type value.location
    let times ← valueOf pending count
    if Word.isNegative times then throw ⟨.negativeFill, count.location⟩
    if memoryLimit < bytes.length * times then
      throw ⟨.hugeFill memoryLimit, count.location⟩
    pure (List.replicate times bytes).flatten
  | .string l text => elements type l ((Text.Utf8.encode text).map UInt8.toNat)
  | e => do
    let word ← valueOf pending e
    element word type e.location

def initializersBytes (pending : Pending) (type : ElementType) : List Expr → Processing (List UInt8)
  | [] => pure []
  | e :: rest => do
    let bytes ← initializerBytes pending type e
    let more ← initializersBytes pending type rest
    pure (bytes ++ more)

def checkFree (name : String) (location : Option Location) : Processing Unit := do
  orFault ((← get).symbols.checkFree name location)

def define (name : String) (symbol : Symbol) : Processing Unit := do
  let symbols ← orFault ((← get).symbols.define name symbol)
  modify fun a => { a with symbols := symbols }

/-- Carry out a step; if it fails, bind the name all the same and fail with the same fault. -/
def orBind {α : Type} (name : String) (symbol : Symbol) (step : Processing α) : Processing α := fun a =>
  match step a with
  | .ok x a => .ok x a
  | .error fault a =>
    match define name symbol a with
    | .ok _ a => .error fault a
    | .error e a => .error e a

/-- Append bytes to the memory and bind a name to them. -/
def appendRegion (name : String) (location : Option Location) (bytes : List UInt8) :
    Processing Unit := do
  let address := (← get).memory.length
  modify fun a => { a with memory := a.memory ++ bytes }
  define name ⟨location, .region address bytes.length⟩

def appendInstruction (pending : Pending) (location : Option Location) (name : String)
    (argument : Option Expr) : Processing Unit :=
  match InstructionSet.byName? name with
  | none => throw ⟨.noSuchInstruction name, location⟩
  | some m =>
    match m.takesArgument, argument with
    | true, none => throw ⟨.missingArgument name, location⟩
    | false, some _ => throw ⟨.unwantedArgument name, location⟩
    | true, some e => do
      let word ← valueOf pending e
      modify fun a => { a with records := a.records ++ [⟨m.opcode, word⟩] }
    | false, none => modify fun a => { a with records := a.records ++ [⟨m.opcode, 0⟩] }

def bindConstant (pending : Pending) (location : Option Location) (name : String) (e : Expr) :
    Processing Unit := do
  checkFree name location
  let word ← orBind name ⟨location, .constant 0⟩ (valueOf pending e)
  define name ⟨location, .constant word⟩

def bindRegion (pending : Pending) (location : Option Location) (name : String) (type : ElementType)
    (initializers : List Expr) : Processing Unit := do
  checkFree name location
  let address := (← get).memory.length
  let bytes ← orBind name ⟨location, .region address 0⟩
    (initializersBytes pending type initializers)
  appendRegion name location bytes

/-- Find and read a file to be embedded, which is looked for from the source of the statement. -/
def openEmbedded (env : Surroundings) (location : Option Location) (path : String) :
    Except Obstacle (Path × List UInt8) :=
  let source := (location.map Location.file).getD FileTree.inputName
  match env.tree.find? path source env.searchPaths with
  | .error e => .error (.search e)
  | .ok none => .error (.fault ⟨.embedding path .notFound, location⟩)
  | .ok (some resolved) =>
    match env.tree.readBytes resolved with
    | .error e => .error (.fault ⟨.embedding path (.unreadable e), location⟩)
    | .ok bytes => .ok (resolved, bytes)

def appendFile (location : Option Location) (name : String) (resolved : Path) (bytes : List UInt8) :
    Processing Unit := do
  let address := (← get).memory.length
  appendRegion name location bytes
  modify fun a =>
    { a with
      journal :=
        { a.journal with
          log := a.journal.log ++ [.embedded resolved.written bytes.length address] } }

/-- Embed a file. It is looked for only if the name is free. -/
def embed (env : Surroundings) (location : Option Location) (name path : String) : Attempt Unit := do
  (checkFree name location).adaptExcept .fault
  match openEmbedded env location path with
  | .error obstacle => throw obstacle
  | .ok (resolved, bytes) => (appendFile location name resolved bytes).adaptExcept .fault

def process (env : Surroundings) (pending : Pending) : Statement → Attempt Unit
  | .label .. => pure ()
  | .instruction l name argument => (appendInstruction pending l name argument).adaptExcept .fault
  | .constant l name e => (bindConstant pending l name e).adaptExcept .fault
  | .region l name type initializers => (bindRegion pending l name type initializers).adaptExcept .fault
  | .embedding l name path => embed env l name path
  | .foreign l kind => throw (.fault ⟨.notAStatement kind, l⟩)

/-- Process a statement and record its fault. A fatal fault is not recorded but stops the pass, and so does a search
that is cut short. -/
def attempt (step : Attempt Unit) : Assembling Unit := fun a =>
  match step a with
  | .ok _ a => .ok () a
  | .error (.fault fault) a =>
    if fault.isFatal then .error (.fatal fault) a else reporting (Journal.report fault) a
  | .error (.search e) a => .error (.search e) a

def processAll (env : Surroundings) (pending : Pending) : List Statement → Assembling Unit
  | [] => pure ()
  | s :: rest => do
    attempt (process env pending s)
    processAll env pending rest

/-- The constants and regions of a program with the places of their first declarations. -/
def declarations (statements : List Statement) : Pending :=
  statements.foldl (fun found s =>
    match s.lateName? with
    | some name => if (found.lookup name).isSome then found else found ++ [(name, s.location)]
    | none => found) []

/-- The second pass: process the statements. There is an image if no error was recorded. -/
def generate (settings : AssemblySettings) (program : Program) : Assembling (Option Image) := do
  processAll settings.surroundings (declarations program.statements) program.statements
  let a ← get
  if a.journal.diagnostics.happened then pure none
  else
    reporting (Journal.note (.generated a.records.length a.memory.length))
    pure (some
      { memory := a.memory, records := a.records, entryPoint := a.entryPoint.getD 0 })

def compile (settings : AssemblySettings) (program : Program) : Assembling (Option Image) := do
  if ← resolve settings program then generate settings program else pure none

end Assembly

end AvmAssembler
