import AvmAssembler.Assembly
import AvmAssembler.Image.Storage

/-! # Sessions

A session assembles sources one after another with the same settings. Each run starts from an empty collector and
forgets the results of the run before; only a run that cannot read its source leaves them in place. Nothing is written
unless the whole run was without errors.
-/

namespace AvmAssembler

structure Settings where
  /-- Greatest number of errors and notes recorded. -/
  maxErrors : Int := 8
  /-- Whether images are written with an interpreter line and marked as executable. -/
  executable : Bool := true
  showWarnings : Bool := true
  searchPaths : List String := []
  entryLabel : String := "entry"

/-- A session: its settings, the files around it, and the results of the last run. -/
structure Session where
  settings : Settings := {}
  tree : FileTree := {}
  journal : Journal := {}
  image : Option Image := none
  symbols : Option SymbolTable := none

/-- What a run does not handle itself. -/
inductive Escape where
  | limit (e : LimitExceeded)
  | numeral (e : NumeralError)
  | range (e : FieldRange)
  | search (e : SearchError)
  /-- No file can have the name. -/
  | name
  deriving DecidableEq

abbrev Run := EStateM Escape Session

def abortMessage : String := "Compilation aborted"

namespace Session

def start (settings : Settings) (tree : FileTree) : Session :=
  { settings := settings
    tree := tree
    journal :=
      { diagnostics := { limit := settings.maxErrors, showWarnings := settings.showWarnings } } }

def surroundings (s : Session) : Surroundings :=
  ⟨s.tree, s.settings.searchPaths⟩

/-- What an assembly of the session depends on. -/
def assemblySettings (s : Session) : AssemblySettings :=
  ⟨s.surroundings, s.settings.entryLabel⟩

def withDiagnostics (s : Session) (ds : Diagnostics) : Session :=
  { s with journal := { s.journal with diagnostics := ds } }

def note (e : Event) : Run Unit :=
  modify fun s => { s with journal := { s.journal with log := s.journal.log ++ [e] } }

inductive Phase (α : Type) where
  | finished (value : α)
  /-- Stopped; the diagnostics hold the reason. -/
  | stopped (reason : String)
  /-- Stopped by a fault that is not recorded yet. -/
  | faulted (fault : Fault)

/-- What a phase that was aborted amounts to. -/
def ofAbort {α : Type} : Abort → Run (Phase α)
  | .recorded => pure (.stopped abortMessage)
  | .limit e => pure (.stopped e.message)
  | .fatal fault => pure (.faulted fault)
  | .numeral e => throw (.numeral e)
  | .search e => throw (.search e)

def readProgram (path source : String) : Run (Phase Program) := fun s =>
  match Program.read s.surroundings path source s.journal with
  | .ok program j => .ok (.finished program) { s with journal := j }
  | .error e j => ofAbort e { s with journal := j }

/-- Generate the image. The symbols are kept however far the passes come. -/
def generateImage (program : Program) : Run (Phase (Option Image)) := fun s =>
  match Assembly.compile s.assemblySettings program { journal := s.journal } with
  | .ok image a => .ok (.finished image) { s with journal := a.journal, symbols := some a.symbols }
  | .error e a => ofAbort e { s with journal := a.journal, symbols := some a.symbols }

def writeImage (image : Image) (output : Path) : Run (Phase Unit) := do
  let s ← get
  let (tree, result) := image.write s.settings.executable output s.tree
  set { s with tree := tree }
  match result with
  | .ok () =>
    note (.wrote output.written image.records.length image.memory.length image.entryPoint)
    pure (.finished ())
  | .error (.fault fault) => pure (.faulted fault)
  | .error (.range e) => throw (.range e)
  | .error .name => throw .name

/-- Record a fault that ends a run; at the limit it only marks the collector as truncated. -/
def recordLast (fault : Fault) : Run Unit := fun s =>
  match Diagnostics.add fault s.journal.diagnostics with
  | .ok _ ds => .ok () (s.withDiagnostics ds)
  | .error _ ds => .ok () (s.withDiagnostics ds)

/-- Go on with the value of a phase; otherwise close the run without success. -/
def afterPhase {α : Type} (path : String) (phase : Phase α) (next : α → Run Bool) : Run Bool :=
  match phase with
  | .finished value => next value
  | .stopped reason => do
    note (.stopped path reason)
    pure false
  | .faulted fault => do
    recordLast fault
    pure false

/-- Assemble source text and write the image if an output is named. The answer is the success of the run. -/
def assemble (source : String) (path : String := FileTree.inputName) (output : Option Path := none) :
    Run Bool := do
  modify fun s =>
    { s.withDiagnostics s.journal.diagnostics.reset with image := none, symbols := none }
  note (.assembling path)
  afterPhase path (← readProgram path source) fun program => do
    if (← get).journal.diagnostics.happened then return false
    note (.expanded path program.instructionCount)
    afterPhase path (← generateImage program) fun image? => do
      let some image := image? | return false
      let written ← match output with
        | some output => writeImage image output
        | none => pure (.finished ())
      afterPhase path written fun _ => do
        modify fun s => { s with image := some image }
        return true

def assembleText (source : String) (path : String := FileTree.inputName) : Run (Option Image) := do
  if ← assemble source path then return (← get).image
  return none

/-- Close a run whose source cannot be read; earlier results stay. -/
def unreadableSource (path : Path) (reason : String) : Run Bool := fun s =>
  let message := s!"cannot read '{path.written}': {reason}"
  match Diagnostics.record ⟨.error, message, none⟩ s.journal.diagnostics.reset with
  | .ok _ ds => .ok false (s.withDiagnostics ds)
  | .error e ds => .error (.limit e) (s.withDiagnostics ds)

def assembleFile (path : Path) (output : Option Path := none) : Run Bool := do
  match (← get).tree.readBytes path with
  | .error .nullInName => throw .name
  | .error e => unreadableSource path e.message
  | .ok content =>
    match FileTree.textOf content with
    | .error e => unreadableSource path e.reason.message
    | .ok source => assemble source path.written output

def hasErrors (s : Session) : Bool :=
  s.journal.diagnostics.happened

def report (color : Bool) (s : Session) : String :=
  s.journal.diagnostics.report color

end Session

end AvmAssembler
