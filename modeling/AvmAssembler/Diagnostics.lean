import AvmAssembler.Fault
import AvmAssembler.Text.Case
import AvmAssembler.Text.Styled

/-! # Diagnostics

A collector of errors, warnings and notes in the order in which they were recorded. Errors and notes count toward a
limit; recording one more than the limit is refused and marks the collection as truncated. Warnings do not count and
may be hidden.
-/

namespace AvmAssembler

inductive Severity where
  | error
  | warning
  | note
  deriving DecidableEq, Inhabited

namespace Severity

def title : Severity → String
  | error => "Error"
  | warning => "Warning"
  | note => "Note"

def color : Severity → Text.Color
  | error => .red
  | warning => .yellow
  | note => .cyan

end Severity

structure Diagnostic where
  severity : Severity
  message : String
  location : Option Location := none
  deriving DecidableEq

namespace Diagnostic

def tabWidth : Nat := 4

def expandTabs (cs : List Char) : List Char :=
  cs.flatMap fun c => if c = '\t' then List.replicate tabWidth ' ' else [c]

/-- The source line before, in and after the located span, with tabs expanded. A column below one counts as one, and
so does a length. -/
def splitLine (d : Diagnostic) : List Char × List Char × List Char :=
  match d.location with
  | none => ([], [], [])
  | some l =>
    let line := l.sourceLine.toList
    let start := (l.column - 1).toNat
    let length := (max l.length 1).toNat
    (expandTabs (line.take start), expandTabs ((line.drop start).take length),
      expandTabs (line.drop (start + length)))

/-- A caret and tildes as long as the span, at least the caret. -/
def underline (span : List Char) : String :=
  String.ofList ('^' :: List.replicate (span.length - 1) '~')

def blanks (n : Nat) : String :=
  String.ofList (List.replicate n ' ')

/-- The diagnostic as styled text: a headline, the source line if it is known, and an underline below the located
span. -/
def spans (d : Diagnostic) : List Text.Span :=
  let color := d.severity.color
  let title : Text.Span := ⟨.boldColored color, s!"{d.severity.title}:"⟩
  match d.location with
  | none => [title, .plain s!" {d.message}"]
  | some l =>
    let headline := [title, .plain " ", ⟨.bold, l.written⟩, .plain s!": {d.message}"]
    if l.sourceLine.isEmpty then headline
    else
      let (before, span, after) := d.splitLine
      let gutter := toString l.line
      headline ++
        [.plain s!"\n    {gutter} | {String.ofList before}", ⟨.boldColored color, String.ofList span⟩,
          .plain (String.ofList after),
          .plain s!"\n    {blanks gutter.length} | {blanks before.length}",
          ⟨.colored color, underline span⟩]

def render (color : Bool) (d : Diagnostic) : String :=
  Text.Span.render color d.spans

end Diagnostic

/-- The collector. -/
structure Diagnostics where
  /-- Greatest number of errors and notes. -/
  limit : Int := 8
  showWarnings : Bool := true
  entries : List Diagnostic := []
  errorCount : Nat := 0
  /-- Number of errors and notes recorded. -/
  counted : Nat := 0
  /-- The limit was exceeded. -/
  truncated : Bool := false
  deriving DecidableEq

structure LimitExceeded where
  limit : Int
  deriving DecidableEq

def LimitExceeded.message (e : LimitExceeded) : String :=
  s!"Too many errors ({e.limit}), compilation aborted"

/-- Recording changes a collector and may be refused; a refusal keeps the change. -/
abbrev Recorder := EStateM LimitExceeded Diagnostics

namespace Diagnostics

/-- An empty collector with the same settings. -/
def reset (ds : Diagnostics) : Diagnostics :=
  { limit := ds.limit, showWarnings := ds.showWarnings }

def push (ds : Diagnostics) (d : Diagnostic) : Diagnostics :=
  { ds with
    entries := ds.entries ++ [d]
    errorCount := if d.severity = .error then ds.errorCount + 1 else ds.errorCount
    counted := if d.severity = .warning then ds.counted else ds.counted + 1 }

/-- Record a warning, which is never refused. -/
def warn (ds : Diagnostics) (d : Diagnostic) : Diagnostics :=
  if ds.showWarnings then ds.push d else ds

def record (d : Diagnostic) : Recorder Unit := fun ds =>
  if d.severity = .warning then .ok () (ds.warn d)
  else if ds.limit ≤ ds.counted then .error ⟨ds.limit⟩ { ds with truncated := true }
  else .ok () (ds.push d)

def recordAll : List Diagnostic → Recorder Unit
  | [] => pure ()
  | d :: rest => do
    record d
    recordAll rest

/-- The diagnostics that report a fault: the error, its notes, and its hint as a last note at the place of the error. -/
def ofFault (f : Fault) : List Diagnostic :=
  ⟨.error, f.message, f.location⟩ ::
    f.cause.notes.map (fun n => ⟨.note, n.2, n.1⟩) ++
    f.shownHint.toList.map fun h => ⟨.note, Text.Case.capitalize h, f.location⟩

def add (f : Fault) : Recorder Unit :=
  recordAll (ofFault f)

/-- Some error was recorded. -/
def happened (ds : Diagnostics) : Bool :=
  0 < ds.errorCount

def warningCount (ds : Diagnostics) : Nat :=
  ds.entries.countP fun d => d.severity = .warning

def errors (ds : Diagnostics) : List Diagnostic :=
  ds.entries.filter fun d => d.severity = .error

def truncationMarker : String := "...\nCompilation aborted"

/-- All diagnostics, divided by blank lines. -/
def report (color : Bool) (ds : Diagnostics) : String :=
  let text := "\n\n".intercalate (ds.entries.map (Diagnostic.render color))
  if !ds.truncated then text
  else if text.isEmpty then truncationMarker
  else s!"{text}\n{truncationMarker}"

end Diagnostics

end AvmAssembler
