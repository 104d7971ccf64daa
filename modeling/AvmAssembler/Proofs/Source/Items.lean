import AvmAssembler.Proofs.Outcome
import AvmAssembler.Source.Unit

/-! # A unit, item by item

How a unit is read on from the token ahead, for each outcome of its item.
-/

namespace AvmAssembler

namespace Unit

variable {env : Surroundings} {active : List ActiveFile} {file : String} {ending : Ending} {t : Token}
  {tail rest : List Token}

/-- Read the file of an inclusion, and then on. -/
def enter (env : Surroundings) (active : List ActiveFile) (file path : String) (keyword location : Location)
    (onward : Reporting (List Statement)) : Reporting (List Statement) :=
  match open? env file active path location with
  | .error obstacle => Journal.giveUp obstacle
  | .ok inclusion => do
    Journal.note (.including inclusion.path.written keyword)
    let inner ← read env (active ++ [⟨inclusion.place, some location⟩]) inclusion.path.written inclusion.text
    let more ← onward
    pure (inner ++ more)

/-- Read on behind the token at which a fault was recorded. -/
def resume (env : Surroundings) (active : List ActiveFile) (file : String) (ending : Ending) :
    List Token → Reporting (List Statement)
  | [] => pure []
  | u :: after =>
    match (Grammar.take ending u after).val with
    | .refused fault _ => Journal.stop fault
    | _ => items env active file ending after

theorem items_of_statement {s : Statement} (h : (Grammar.item ending t tail).val = .read (.statement s) rest) :
    items env active file ending (t :: tail) = (do
      let more ← items env active file ending rest
      pure (s :: more)) := by
  rw [items]
  rcases hitem : Grammar.item ending t tail with ⟨o, ho⟩
  rw [hitem] at h
  subst h
  rfl

/-- A unit that starts with an inclusion goes on with the unit that is included. -/
theorem items_of_inclusion {keyword location : Location} {path : String}
    (h : (Grammar.item ending t tail).val = .read (.inclusion keyword path location) rest) :
    items env active file ending (t :: tail) =
      enter env active file path keyword location (items env active file ending rest) := by
  rw [items]
  rcases hitem : Grammar.item ending t tail with ⟨o, ho⟩
  rw [hitem] at h
  subst h
  rfl

theorem items_of_refusal {fault : Fault} (h : (Grammar.item ending t tail).val = .refused fault rest) :
    items env active file ending (t :: tail) =
      (if fault.isFatal then Journal.stop fault
      else do
        Journal.report fault
        resume env active file ending rest) := by
  rw [items]
  rcases hitem : Grammar.item ending t tail with ⟨o, ho⟩
  rw [hitem] at h
  subst h
  cases rest with
  | nil => rfl
  | cons u after =>
    dsimp only [resume]
    rcases Grammar.take ending u after with ⟨o, ho'⟩
    cases o <;> rfl

theorem items_of_unreadable {e : NumeralError} (h : (Grammar.item ending t tail).val = .unreadable e) :
    items env active file ending (t :: tail) = throw (.numeral e) := by
  rw [items]
  rcases hitem : Grammar.item ending t tail with ⟨o, ho⟩
  rw [hitem] at h
  subst h
  rfl

/-! ## The unit of a program -/

/-- It can be told whether the source is a file itself, so reading starts. -/
def CanStart (env : Surroundings) (file : String) : Prop :=
  ∃ active, initiallyActive env file = .ok active

theorem initiallyActive_input (env : Surroundings) : initiallyActive env FileTree.inputName = .ok [] :=
  if_pos rfl

theorem canStart_input (env : Surroundings) : CanStart env FileTree.inputName :=
  ⟨[], initiallyActive_input env⟩

/-- What is known to be under way from the start is the source itself. -/
theorem initiallyActive_eq_ok (h : initiallyActive env file = .ok active) :
    active = [] ∨ ∃ place, env.tree.place? (Path.ofString file) = .ok (some place) ∧ active = [⟨place, none⟩] := by
  unfold initiallyActive at h
  split at h
  · cases h
    exact .inl rfl
  · rcases hplace : env.tree.place? (Path.ofString file) with e | _ | place
    · rw [hplace] at h
      cases h
    · rw [hplace] at h
      cases h
      exact .inl rfl
    · rw [hplace] at h
      cases h
      exact .inr ⟨place, rfl, rfl⟩

/-- Reading does not start if the search for the source is cut short. -/
theorem initiallyActive_eq_error {e : SearchError} :
    initiallyActive env file = .error e ↔
      file ≠ FileTree.inputName ∧ env.tree.place? (Path.ofString file) = .error e := by
  unfold initiallyActive
  split
  · simp [*]
  · cases env.tree.place? (Path.ofString file) <;> simp [Except.map, *]

end Unit

section

variable {env : Surroundings} {file : String}

theorem Program.read_of_active {active : List ActiveFile} (h : Unit.initiallyActive env file = .ok active)
    (text : String) :
    Program.read env file text = (do
      let statements ← Unit.read env active file text
      pure ⟨statements, file⟩) := by
  rw [Program.read, h]

theorem Program.read_of_search {e : SearchError} (h : Unit.initiallyActive env file = .error e) (text : String) :
    Program.read env file text = throw (.search e) := by
  rw [Program.read, h]

theorem Program.exists_of_read_eq_ok {text : String} {p : Program} {j k : Journal}
    (h : Program.read env file text j = .ok p k) :
    ∃ active ss, Unit.initiallyActive env file = .ok active ∧ Unit.read env active file text j = .ok ss k ∧
      p = ⟨ss, file⟩ := by
  cases hactive : Unit.initiallyActive env file with
  | error e =>
    rw [Program.read_of_search hactive] at h
    cases h
  | ok active =>
    rw [Program.read_of_active hactive] at h
    obtain ⟨ss, l, hread, hpure⟩ := exists_of_bind_eq_ok h
    cases hpure
    exact ⟨active, ss, rfl, hread, rfl⟩

end

end AvmAssembler
