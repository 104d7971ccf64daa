import AvmAssembler.Diagnostics

/-! # The journal of a run

What a run reports besides its result: diagnostics for the user, and a log of its progress. A run that stops early
says why.
-/

namespace AvmAssembler

inductive Event where
  | assembling (file : String)
  | expanded (file : String) (instructions : Nat)
  | stopped (file : String) (reason : String)
  | parsing (file : String)
  | parsed (statements : Nat) (file : String)
  | including (path : String) (location : Location)
  | resolved (labels instructions : Nat) (entry : Int)
  | generated (instructions bytes : Nat)
  | embedded (path : String) (bytes address : Nat)
  | wrote (path : String) (instructions bytes : Nat) (entry : Int)
  deriving DecidableEq

namespace Event

/-- The part of the assembler that reports an event. -/
def reporter : Event → String
  | assembling _ | expanded .. | stopped .. => "anasm.assembler.assembler"
  | parsing _ | parsed .. | including .. => "anasm.assembler.parser"
  | resolved .. | generated .. | embedded .. => "anasm.assembler.compiler"
  | wrote .. => "anasm.avm"

def message : Event → String
  | assembling file => s!"Assembling {file}"
  | expanded file n => s!"{file}: {n} instructions after includes"
  | stopped file reason => s!"{file}: {reason}"
  | parsing file => s!"Parsing {file}"
  | parsed n file => s!"Parsed {n} statements from {file}"
  | including path l => s!"Including {path} ({l.written})"
  | resolved labels n entry => s!"Resolved {labels} labels, {n} instructions, entry at {entry}"
  | generated n bytes => s!"Generated {n} instructions and {bytes} bytes of memory"
  | embedded path bytes address => s!"Embedded {path}: {bytes} bytes at {address}"
  | wrote path n bytes entry =>
    s!"Wrote {path}: {n} instructions, {bytes} bytes of memory, entry {entry}"

def line (e : Event) : String :=
  s!"{e.reporter}: {e.message}"

end Event

structure Journal where
  diagnostics : Diagnostics := {}
  log : List Event := []

/-- Why a phase stops before its end. -/
inductive Abort where
  /-- A fatal fault was recorded. -/
  | recorded
  /-- The limit of diagnostics was exceeded. -/
  | limit (e : LimitExceeded)
  /-- A fatal fault that is not recorded yet. -/
  | fatal (fault : Fault)
  /-- A number token denotes no number. -/
  | numeral (e : NumeralError)
  | search (e : SearchError)
  deriving DecidableEq

/-- What keeps a step from being done. Only a fault is reported as one. -/
inductive Obstacle where
  | fault (fault : Fault)
  | search (e : SearchError)
  deriving DecidableEq

/-- A computation that writes the journal and may stop early. -/
abbrev Reporting := EStateM Abort Journal

namespace Journal

def note (e : Event) : Reporting Unit :=
  modify fun j => { j with log := j.log ++ [e] }

/-- Change the diagnostics; being refused stops the run. -/
def recording (r : Recorder Unit) : Reporting Unit := fun j =>
  match r j.diagnostics with
  | .ok _ ds => .ok () { j with diagnostics := ds }
  | .error e ds => .error (.limit e) { j with diagnostics := ds }

def report (fault : Fault) : Reporting Unit :=
  recording (Diagnostics.add fault)

def stop {α : Type} (fault : Fault) : Reporting α := do
  report fault
  throw .recorded

/-- Stop at an obstacle; a fault is recorded. -/
def giveUp {α : Type} : Obstacle → Reporting α
  | .fault fault => stop fault
  | .search e => throw (.search e)

end Journal

end AvmAssembler
