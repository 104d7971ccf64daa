import AvmAssembler.Files.FileTree
import AvmAssembler.Journal
import AvmAssembler.Source.Grammar
import AvmAssembler.Source.Scanner

/-! # Compilation units

A unit is read item by item. A fault that is not fatal is recorded, the token at which reading stopped is skipped and
reading goes on; a fatal fault is recorded and ends the run. The statements of an included file take the place of its
inclusion. A file that is still being read may not be included again, so every inclusion leaves fewer files that can be
included below it, and reading ends.
-/

namespace AvmAssembler

/-- The files within reach of a unit. -/
structure Surroundings where
  tree : FileTree
  searchPaths : List String := []

/-- A file that is being read, and the place of its inclusion if it was included. -/
structure ActiveFile where
  place : Place
  included : Option Location
  deriving DecidableEq

namespace Unit

/-- The places of the entries that are not being read. -/
def idlePlaces (tree : FileTree) (active : List ActiveFile) : List Place :=
  tree.places.filter fun p => !(active.map ActiveFile.place).contains p

/-- A file to be included: its path, its text and its place, which is an entry of the tree that is not being read. -/
structure Inclusion (tree : FileTree) (active : List ActiveFile) where
  path : Path
  text : String
  place : Place
  known : place ∈ tree.places
  idle : place ∉ active.map ActiveFile.place

theorem idlePlaces_length_lt {tree : FileTree} {active : List ActiveFile}
    (i : Inclusion tree active) (l : Option Location) :
    (idlePlaces tree (active ++ [⟨i.place, l⟩])).length < (idlePlaces tree active).length := by
  have hsub : idlePlaces tree (active ++ [⟨i.place, l⟩]) =
      (idlePlaces tree active).filter fun p => p ≠ i.place := by
    unfold idlePlaces
    rw [List.filter_filter]
    apply List.filter_congr
    intro p _
    by_cases hp : p = i.place <;> simp [hp]
  have hmem : i.place ∈ idlePlaces tree active := by
    have := i.idle
    simp only [idlePlaces, List.mem_filter]
    exact ⟨i.known, by simpa using this⟩
  rw [hsub]
  exact List.length_filter_lt_length_iff_exists.2 ⟨i.place, hmem, by simp⟩

def inclusionFault (path : String) (location : Location) (failure : InclusionFailure)
    (notes : List Note := []) (searched : List String := []) : Fault :=
  ⟨.inclusion path failure notes searched, some location⟩

def open? (env : Surroundings) (file : String) (active : List ActiveFile) (path : String)
    (location : Location) : Except Obstacle (Inclusion env.tree active) :=
  match env.tree.find? path file env.searchPaths with
  | .error e => .error (.search e)
  | .ok none => .error (.fault (inclusionFault path location .notFound [] env.searchPaths))
  | .ok (some resolved) =>
    match h : env.tree.target resolved with
    | .file place content _ =>
      match ha : active.find? fun a => a.place = place with
      | some a =>
        let notes := a.included.toList.map fun l => (some l, s!"'{path}' first included here")
        .error (.fault (inclusionFault path location .circular notes))
      | none =>
        match FileTree.textOf content with
        | .error e => .error (.fault (inclusionFault path location (.undecodable e)))
        | .ok text =>
          .ok ⟨resolved, text, place, FileTree.mem_places_of_target h, by
            rw [List.find?_eq_none] at ha
            intro hm
            obtain ⟨a, ham, rfl⟩ := List.mem_map.1 hm
            exact ha a ham (by simp)⟩
    | _ => .error (.fault (inclusionFault path location .notFound [] env.searchPaths))

/-- The tokens of a unit, the first of which has to be well formed. -/
def start (file text : String) : Reporting (List Token × Ending) := do
  Journal.note (.parsing file)
  match tokenize file text with
  | ([], .malformed f l) => Journal.stop ⟨.lexical f, some l⟩
  | stream => pure stream

mutual

/-- Read a unit while some files are being read, its own included. -/
def read (env : Surroundings) (active : List ActiveFile) (file text : String) :
    Reporting (List Statement) := do
  let (tokens, ending) ← start file text
  let statements ← items env active file ending tokens
  Journal.note (.parsed statements.length file)
  pure statements
termination_by ((idlePlaces env.tree active).length, 1, 0)

def items (env : Surroundings) (active : List ActiveFile) (file : String) (ending : Ending)
    (tokens : List Token) : Reporting (List Statement) :=
  match tokens with
  | [] => pure []
  | t :: tail =>
    match Grammar.item ending t tail with
    | ⟨.read (.statement s) rest, _⟩ => do
      let more ← items env active file ending rest
      pure (s :: more)
    | ⟨.read (.inclusion keyword path location) rest, _⟩ =>
      match open? env file active path location with
      | .error obstacle => Journal.giveUp obstacle
      | .ok inclusion => do
        Journal.note (.including inclusion.path.written keyword)
        let inner ← read env (active ++ [⟨inclusion.place, some location⟩]) inclusion.path.written
          inclusion.text
        let more ← items env active file ending rest
        pure (inner ++ more)
    | ⟨.refused fault rest, hwithin⟩ =>
      if fault.isFatal then Journal.stop fault
      else do
        Journal.report fault
        match rest, hwithin with
        | [], _ => pure []
        | u :: after, hwithin =>
          have _hshorter : after.length < (t :: tail).length := hwithin
          match Grammar.take ending u after with
          | ⟨.refused fault _, _⟩ => Journal.stop fault
          | _ => items env active file ending after
    | ⟨.unreadable e, _⟩ => throw (.numeral e)
termination_by ((idlePlaces env.tree active).length, 0, tokens.length)
decreasing_by
  all_goals first
    | exact Prod.Lex.left _ _ (idlePlaces_length_lt _ _)
    | decreasing_tactic

end

/-- The file that a unit itself occupies while it is read, if it is one. -/
def initiallyActive (env : Surroundings) (file : String) : Except SearchError (List ActiveFile) :=
  if file = FileTree.inputName then .ok []
  else (env.tree.place? (Path.ofString file)).map fun place => place.toList.map fun p => ⟨p, none⟩

end Unit

def Program.read (env : Surroundings) (file text : String) : Reporting Program :=
  match Unit.initiallyActive env file with
  | .error e => throw (.search e)
  | .ok active => do
    let statements ← Unit.read env active file text
    pure ⟨statements, file⟩

/-- Read a single expression that makes up the whole text. -/
def Expr.read (text : String) : Except (Fault ⊕ NumeralError) Expr :=
  match tokenize FileTree.inputName text with
  | ([], .malformed f l) => .error (.inl ⟨.lexical f, some l⟩)
  | (tokens, ending) =>
    match (Grammar.expression ending tokens).val with
    | .read e [] => .ok e
    | .read _ (t :: rest) =>
      .error (.inl ⟨.trailing (Grammar.found (t :: rest)), some t.location⟩)
    | .refused fault _ => .error (.inl fault)
    | .unreadable e => .error (.inr e)

end AvmAssembler
