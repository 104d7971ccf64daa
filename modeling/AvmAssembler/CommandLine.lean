import AvmAssembler.CommandLine.Options
import AvmAssembler.Image.Listing
import AvmAssembler.Session

/-! # The command

The command assembles a source file, or lists an image as source text. It is a function from the words of its command
line and the files around it to its exit code, its two outputs and the files afterwards.
-/

namespace AvmAssembler.CommandLine

inductive ExitCode where
  | success
  | buildError
  | invalidArguments
  | internalError
  deriving DecidableEq

def ExitCode.number : ExitCode → Nat
  | success => 0
  | buildError => 1
  | invalidArguments => 2
  | internalError => 3

/-- What the command leaves behind. A misuse of the command line is answered by a usage text and a request for help by
a help text; both are left to whoever runs the command. -/
structure Result where
  exit : ExitCode
  stdout : String := ""
  /-- Nothing when the usage text is shown. -/
  stderr : Option String := some ""
  tree : FileTree

inductive Failure where
  /-- The program or the image is at fault. -/
  | program (message : String)
  | parameter (message : String)
  | file (name : Option String) (message : String)
  | internal (message : String)

namespace Failure

def ofFileError (path : Path) : FileError → Failure
  | .nullInName => .program FileError.nullInName.message
  | e => .file (some path.written) e.message

def exit : Failure → ExitCode
  | program _ => .buildError
  | parameter _ | file .. => .invalidArguments
  | internal _ => .internalError

/-- A line of output. Escape sequences are dropped, since the output is no terminal. -/
def echo (s : String) : String :=
  String.ofList (Text.stripSequences s.toList) ++ "\n"

/-- The message of a failure. `activity` names what was going on. -/
def message (activity : Option String) : Failure → String
  | program m =>
    match activity.filter fun a => !a.isEmpty with
    | some a => s!"{a} error: {m}"
    | none => s!"Error: {m}"
  | parameter m => s!"Error: {m}"
  | file name m =>
    match name.filter fun n => !n.isEmpty with
    | some n => s!"Error: '{n}': {m}"
    | none => s!"Error: {m}"
  | internal m => s!"Internal error: {m}"

def shown (activity : Option String) (f : Failure) : String :=
  echo (f.message activity)

end Failure

def sourceExtension : String := ".anasm"

/-- The file written when no output is named: in the working directory, named after the input. -/
def defaultOutput (input : Path) (listing : Bool) : Path :=
  let name := (Path.ofString input.name).written
  if listing then
    Path.ofString (if Path.suffix name = sourceExtension then s!"{name}.out" else s!"{name}{sourceExtension}")
  else if (Path.suffix name).isEmpty then Path.ofString s!"{name}.out"
  else ⟨"", [Path.withoutSuffix name]⟩

structure Task where
  input : Path
  output : Path
  settings : Settings
  listing : Bool
  verbose : Bool

def misuse (tree : FileTree) : Result :=
  { exit := .invalidArguments, stderr := none, tree := tree }

inductive Refusal where
  /-- They are no use of the command. -/
  | misuse
  /-- A path holds a null character, which no name of a file does. -/
  | nullInPath
  deriving DecidableEq

/-- The answer to refused arguments. A null character in a path ends the command without a word. -/
def Refusal.result (tree : FileTree) : Refusal → Result
  | misuse => CommandLine.misuse tree
  | nullInPath => { exit := .buildError, tree := tree }

def checkPath (tree : FileTree) (accepts : Target → Bool) (text : String) : Except Refusal Unit :=
  if text.toList.contains '\x00' then throw .nullInPath
  else if accepts (tree.rawTarget text) then pure ()
  else throw .misuse

/-- The greatest number of errors and notes asked for, which has to be positive. -/
def errorLimit (o : Options) : Except Refusal Int :=
  match o.maxErrors with
  | none => pure ({} : Settings).maxErrors
  | some text =>
    match integer? text with
    | some n => if 1 ≤ n then pure n else throw .misuse
    | none => throw .misuse

/-- Check the value of an option: an output is no directory, and a search path is one. -/
def checkOption (tree : FileTree) (o : Options) : Flag → Except Refusal Unit
  | .output => o.output.toList.forM (checkPath tree fun target => !target.isDirectory)
  | .searchPath => o.searchPaths.forM (checkPath tree Target.isDirectory)
  | .maxErrors => discard (errorLimit o)
  | _ => pure ()

/-- Check the arguments of the command: the options in the order in which they were first used, then the input, which
is one file. The first that does not pass decides. -/
def task (tree : FileTree) (o : Options) : Except Refusal Task := do
  o.used.forM (checkOption tree o)
  let input :: others := o.operands | throw .misuse
  checkPath tree Target.isFile input
  if !others.isEmpty then throw .misuse
  let input := Path.ofString input
  pure
    { input := input
      output := (o.output.map Path.ofString).getD (defaultOutput input o.disassemble)
      settings :=
        { maxErrors := ← errorLimit o
          executable := o.executable
          showWarnings := !o.hideWarnings
          searchPaths := o.searchPaths.map fun p => (Path.ofString p).written }
      listing := o.disassemble
      verbose := o.verbose }

def Task.say (t : Task) (line : String) : String :=
  if t.verbose then Failure.echo line else ""

def Task.log (t : Task) (events : List Event) : String :=
  if t.verbose then String.join (events.map fun e => e.line ++ "\n") else ""

def Task.assemble (t : Task) (tree : FileTree) : Result :=
  let started := t.say s!"Assembling {t.input.written}..."
  match Session.assembleFile t.input (some t.output) (Session.start t.settings tree) with
  | .ok success s =>
    let ds := s.journal.diagnostics
    let report := if ds.entries.isEmpty && !ds.truncated then "" else Failure.echo (s.report true)
    let stderr := t.log s.journal.log ++ report
    if !success then
      { exit := .buildError, stdout := started, stderr := some stderr, tree := s.tree }
    else
      let image := s.image.getD {}
      let wrote := t.say
        s!"Wrote {image.records.length} instructions and {image.memory.length} bytes of memory to {t.output.written}"
      { exit := .success
        stdout := started ++ wrote ++ t.say s!"Entry point: {image.entryPoint}"
        stderr := some stderr
        tree := s.tree }
  | .error e s =>
    let failure : Failure :=
      match e with
      | .limit e => .program e.message
      | .numeral e => .program e.message
      | .range _ => .internal "argument out of range"
      | .search e => .ofFileError e.path e.error
      | .name => .program FileError.nullInName.message
    { exit := failure.exit
      stdout := started
      stderr := some (t.log s.journal.log ++ failure.shown (some "Assembly"))
      tree := s.tree }

def writeText (path : Path) (text : String) (tree : FileTree) : Except Failure FileTree :=
  match tree.openForWriting path with
  | .error e => .error (.ofFileError path e)
  | .ok (place, executable) => .ok (tree.put place (.file (Text.Utf8.encode text) executable))

def Task.list (t : Task) (tree : FileTree) : Result :=
  let started := t.say s!"Disassembling {t.input.written}..."
  let outcome : Except Failure (Image × FileTree) := do
    let image ← (Image.read t.input tree).mapError fun
      | .file e => .ofFileError t.input e
      | .image e => .program e.message
    let tree ← writeText t.output (image.listing Image.defaultIndent (some t.input.name)) tree
    pure (image, tree)
  match outcome with
  | .ok (image, tree) =>
    { exit := .success
      stdout := started ++ t.say s!"Wrote {image.records.length} instructions to {t.output.written}"
      tree := tree }
  | .error failure =>
    { exit := failure.exit
      stdout := started
      stderr := some (failure.shown (some "Disassembly"))
      tree := tree }

def versionLine : String := "anasm, version 1.13.0\n"

def run (words : List String) (tree : FileTree) : Result :=
  match Options.ofWords words with
  | none => misuse tree
  | some o =>
    match o.inquiry with
    | some .version => { exit := .success, stdout := versionLine, tree := tree }
    | some .help => { exit := .success, tree := tree }
    | none =>
      match task tree o with
      | .error refusal => refusal.result tree
      | .ok t => if t.listing then t.list tree else t.assemble tree

end AvmAssembler.CommandLine
