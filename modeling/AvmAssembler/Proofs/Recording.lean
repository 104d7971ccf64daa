import AvmAssembler.Assembly
import AvmAssembler.Proofs.Comparison
import AvmAssembler.Proofs.Reports
import AvmAssembler.Proofs.Source.Items

/-! # What reading and compiling know of the diagnostics

Reading and compiling do two things with a collector: they record, and they ask whether an error was recorded. Two runs
whose collectors answer alike, and stay alike when something is recorded, take the same course, unless a report is
refused in the first run alone.
-/

namespace AvmAssembler

open Diagnostics

namespace Comparison

/-- Collectors in which two runs agree give the same answer, and recording keeps up the agreement. -/
structure Recording (c : Comparison LimitExceeded Diagnostics) : Prop where
  happened {ds es : Diagnostics} : c.same ds es → ds.happened = es.happened
  warn {ds es : Diagnostics} (message : String) (l : Option Location) :
    c.same ds es → c.same (ds.warn ⟨.warning, message, l⟩) (es.warn ⟨.warning, message, l⟩)
  warn_later (ds : Diagnostics) (message : String) (l : Option Location) :
    c.later ds (ds.warn ⟨.warning, message, l⟩)
  report {r : Report} : r.isError = true → c.Respects (recordAll r.diagnostics)

/-- Journals are compared by their diagnostics. -/
def onJournal (c : Comparison LimitExceeded Diagnostics) : Comparison Abort Journal where
  same j k := c.same j.diagnostics k.diagnostics
  cut abort j k := ∃ refusal, abort = .limit refusal ∧ c.cut refusal j.diagnostics k.diagnostics
  later j k := c.later j.diagnostics k.diagnostics
  later_refl j := c.later_refl j.diagnostics
  later_trans := c.later_trans
  cut_later := fun ⟨refusal, habort, hcut⟩ hlater => ⟨refusal, habort, c.cut_later hcut hlater⟩

/-- Assemblies are compared by their journals and have everything else in common. Some failures abort the run. -/
def onAssembly {ε : Type} (c : Comparison LimitExceeded Diagnostics) (abort? : ε → Option Abort) :
    Comparison ε Assembly where
  same a b := ∃ j, b = { a with journal := j } ∧ c.onJournal.same a.journal j
  cut e a b := ∃ abort, abort? e = some abort ∧ c.onJournal.cut abort a.journal b.journal
  later a b := c.onJournal.later a.journal b.journal
  later_refl a := c.onJournal.later_refl a.journal
  later_trans := c.onJournal.later_trans
  cut_later := fun ⟨abort, habort, hcut⟩ hlater => ⟨abort, habort, c.onJournal.cut_later hcut hlater⟩

abbrev onPass (c : Comparison LimitExceeded Diagnostics) : Comparison Abort Assembly := c.onAssembly some

abbrev onStatement {ε : Type} (c : Comparison LimitExceeded Diagnostics) : Comparison ε Assembly :=
  c.onAssembly fun _ => none

end Comparison

variable {c : Comparison LimitExceeded Diagnostics}

/-! ## Journals -/

namespace Journal

theorem recording_eq (r : Recorder Unit) :
    recording r = onPart Journal.diagnostics (fun j ds => { j with diagnostics := ds }) .limit fun _ => r := by
  funext j
  unfold recording onPart
  dsimp only
  cases r j.diagnostics <;> rfl

theorem recording_respects {r : Recorder Unit} (h : c.Respects r) : c.onJournal.Respects (recording r) := by
  rw [recording_eq]
  exact .part (fun _ => h) (fun _ _ hsame => ⟨rfl, hsame, fun _ _ h => h⟩) (fun _ _ e _ _ hcut => ⟨e, rfl, hcut⟩)
    fun _ _ h => h

theorem note_respects (e : Event) : c.onJournal.Respects (note e) :=
  .modify (fun _ _ h => h) fun j => c.later_refl j.diagnostics

theorem report_respects (hc : c.Recording) (fault : Fault) : c.onJournal.Respects (report fault) :=
  recording_respects (hc.report (r := .fault fault) rfl)

theorem stop_respects (hc : c.Recording) {α : Type} (fault : Fault) :
    c.onJournal.Respects (stop fault : Reporting α) :=
  (report_respects hc fault).bind fun _ => .throw Abort.recorded

theorem giveUp_respects (hc : c.Recording) {α : Type} (obstacle : Obstacle) :
    c.onJournal.Respects (giveUp obstacle : Reporting α) := by
  cases obstacle with
  | fault fault => exact stop_respects hc fault
  | search e => exact .throw (Abort.search e)

end Journal

/-! ## Units -/

namespace Unit

variable {env : Surroundings} (hc : c.Recording)

include hc

theorem start_respects (file text : String) : c.onJournal.Respects (start file text) := by
  refine (Journal.note_respects (.parsing file)).bind fun _ => ?_
  split
  · exact Journal.stop_respects hc _
  · exact .pure _

mutual

theorem read_respects (active : List ActiveFile) (file text : String) :
    c.onJournal.Respects (read env active file text) := by
  rw [read]
  refine (start_respects hc file text).bind fun (tokens, ending) => ?_
  exact (items_respects active file ending tokens).bind fun ss => (Journal.note_respects _).bind fun _ => .pure ss
termination_by ((idlePlaces env.tree active).length, 1, 0)

theorem items_respects (active : List ActiveFile) (file : String) (ending : Ending) (tokens : List Token) :
    c.onJournal.Respects (items env active file ending tokens) := by
  match tokens with
  | [] =>
    rw [items]
    exact .pure []
  | t :: tail =>
    have hwithin := (Grammar.item ending t tail).property
    cases hitem : (Grammar.item ending t tail).val with
    | read i rest =>
      rw [hitem] at hwithin
      have hshorter : rest.length < (t :: tail).length := hwithin
      have hrest := items_respects active file ending rest
      cases i with
      | statement s =>
        rw [items_of_statement hitem]
        exact hrest.bind fun more => .pure (s :: more)
      | inclusion keyword path location =>
        rw [items_of_inclusion hitem, enter]
        split
        · exact Journal.giveUp_respects hc _
        · rename_i inclusion _
          refine (Journal.note_respects _).bind fun _ => ?_
          refine (read_respects (active ++ [⟨inclusion.place, some location⟩]) _ _).bind fun inner => ?_
          exact hrest.bind fun more => .pure (inner ++ more)
    | refused fault rest =>
      rw [hitem] at hwithin
      rw [items_of_refusal hitem]
      split
      · exact Journal.stop_respects hc fault
      · refine (Journal.report_respects hc fault).bind fun _ => ?_
        cases rest with
        | nil => exact .pure []
        | cons u after =>
          have hshorter : after.length < (t :: tail).length := hwithin
          rw [resume]
          split
          · exact Journal.stop_respects hc _
          · exact items_respects active file ending after
    | unreadable e =>
      rw [items_of_unreadable hitem]
      exact .throw (Abort.numeral e)
termination_by ((idlePlaces env.tree active).length, 0, tokens.length)
decreasing_by
  all_goals first
    | exact Prod.Lex.left _ _ (idlePlaces_length_lt _ _)
    | decreasing_tactic

end

end Unit

theorem Program.read_respects (hc : c.Recording) (env : Surroundings) (file text : String) :
    c.onJournal.Respects (Program.read env file text) := by
  unfold Program.read
  split
  · exact .throw (Abort.search _)
  · exact (Unit.read_respects hc _ file text).bind fun ss => .pure (Program.mk ss file)

/-! ## Assemblies -/

namespace Assembly

section

variable {ε : Type} {abort? : ε → Option Abort}

/-- Where the journal is not read, the runs read the same. -/
theorem get_respects {α : Type} {next : Assembly → EStateM ε Assembly α}
    (hread : ∀ a j, next { a with journal := j } = next a) (hnext : ∀ a, (c.onAssembly abort?).Respects (next a)) :
    (c.onAssembly abort?).Respects (get >>= next) := by
  refine .get ?_ hnext
  rintro a _ ⟨j, rfl, -⟩
  exact (hread a j).symm

/-- Where the journal is not read or changed, the runs change the same. -/
theorem modify_respects {f : Assembly → Assembly} (hkept : ∀ a, (f a).journal.diagnostics = a.journal.diagnostics)
    (hread : ∀ a j, f { a with journal := j } = { f a with journal := (f { a with journal := j }).journal }) :
    (c.onAssembly abort?).Respects (modify f) := by
  refine .modify ?_ fun a => ?_
  · rintro a _ ⟨j, rfl, hsame⟩
    refine ⟨_, hread a j, ?_⟩
    simpa only [Comparison.onJournal, hkept] using hsame
  · change c.later a.journal.diagnostics (f a).journal.diagnostics
    rw [hkept]
    exact c.later_refl _

end

theorem reporting_eq {α : Type} (r : Reporting α) :
    reporting r = onPart Assembly.journal (fun a j => { a with journal := j }) id fun _ => r := by
  funext a
  unfold reporting onPart
  dsimp only
  cases r a.journal <;> rfl

theorem reporting_respects {α : Type} {r : Reporting α} (h : c.onJournal.Respects r) :
    c.onPass.Respects (reporting r) := by
  rw [reporting_eq]
  refine .part (fun _ => h) ?_ (fun _ _ abort _ _ hcut => ⟨abort, rfl, hcut⟩) fun _ _ h => h
  rintro a _ ⟨j, rfl, hsame⟩
  exact ⟨rfl, hsame, fun _ k h => ⟨k, rfl, h⟩⟩

theorem happened_eq (hc : c.Recording) {ε : Type} {abort? : ε → Option Abort} {a b : Assembly}
    (h : (c.onAssembly abort?).same a b) : a.journal.diagnostics.happened = b.journal.diagnostics.happened := by
  obtain ⟨j, rfl, hsame⟩ := h
  exact hc.happened hsame

/-! ### First pass -/

section

variable (hc : c.Recording)

include hc

theorem bindLabels_respects (address : Nat) (declared : Pending) (ss : List Statement) :
    c.onPass.Respects (bindLabels address declared ss) := by
  induction ss generalizing address declared with
  | nil => exact .pure address
  | cons s rest ih =>
    have hreport : ∀ fault, c.onPass.Respects (reporting (Journal.report fault)) :=
      fun fault => reporting_respects (Journal.report_respects hc fault)
    cases s with
    | label l name =>
      rw [bindLabels]
      split
      · exact (hreport _).bind fun _ => ih address declared
      · refine get_respects (fun _ _ => rfl) fun a => ?_
        split
        · exact .bind (modify_respects (fun _ => rfl) fun _ _ => rfl) fun _ => ih address declared
        · exact (hreport _).bind fun _ => ih address declared
    | instruction l name argument =>
      rw [bindLabels]
      exact ih (address + 1) declared
    | constant | region | embedding | foreign =>
      rw [bindLabels]
      · split
        · split <;> exact ih address _
        · exact ih address declared
      all_goals simp

theorem resolve_respects (settings : AssemblySettings) (program : Program) :
    c.onPass.Respects (resolve settings program) := by
  refine (bindLabels_respects hc 0 [] program.statements).bind fun address => ?_
  refine get_respects (fun _ _ => rfl) fun a => ?_
  split
  · refine .bind (modify_respects (fun _ => rfl) fun _ _ => rfl) fun _ => ?_
    refine get_respects (fun _ _ => rfl) fun b => ?_
    refine (reporting_respects (Journal.note_respects _)).bind fun _ => ?_
    exact .get (fun b b' h => by rw [happened_eq hc h]) fun b => .pure _
  · have hmissing : c.Respects (record (Report.missingEntry settings.entryLabel).head) := by
      have hsingle : recordAll (Report.missingEntry settings.entryLabel).diagnostics =
          record (Report.missingEntry settings.entryLabel).head := bind_pure_unit
      exact hsingle ▸ hc.report rfl
    exact (reporting_respects (Journal.recording_respects hmissing)).bind fun _ => .pure false

end

/-! ### Statements -/

theorem orFault_respects {α : Type} (r : Except Fault α) : c.onStatement.Respects (orFault r) := by
  cases r with
  | ok x => exact .pure x
  | error fault => exact .throw fault

theorem valueOf_respects (pending : Pending) (e : Expr) : c.onStatement.Respects (valueOf pending e) :=
  get_respects (fun _ _ => rfl) fun _ => (orFault_respects _).bind fun v => .pure v.toNat

theorem checkFree_respects (name : String) (l : Option Location) : c.onStatement.Respects (checkFree name l) :=
  get_respects (fun _ _ => rfl) fun _ => orFault_respects _

theorem define_respects (name : String) (symbol : Symbol) : c.onStatement.Respects (define name symbol) :=
  get_respects (fun _ _ => rfl) fun _ =>
    (orFault_respects _).bind fun _ => modify_respects (fun _ => rfl) fun _ _ => rfl

theorem appendRegion_respects (name : String) (l : Option Location) (bytes : List UInt8) :
    c.onStatement.Respects (appendRegion name l bytes) :=
  get_respects (fun _ _ => rfl) fun _ =>
    .bind (modify_respects (fun _ => rfl) fun _ _ => rfl) fun _ => define_respects name _

theorem appendInstruction_respects (pending : Pending) (l : Option Location) (name : String) (argument : Option Expr) :
    c.onStatement.Respects (appendInstruction pending l name argument) := by
  unfold appendInstruction
  split
  · exact .throw _
  · split
    · exact .throw _
    · exact .throw _
    · exact (valueOf_respects pending _).bind fun _ => modify_respects (fun _ => rfl) fun _ _ => rfl
    · exact modify_respects (fun _ => rfl) fun _ _ => rfl

section

variable (hc : c.Recording) (pending : Pending) (type : ElementType)

include hc

theorem element_respects (word : Nat) (l : Option Location) : c.onStatement.Respects (element word type l) := by
  unfold element
  dsimp only
  split
  · refine Comparison.Respects.bind (.modify ?_ fun a => hc.warn_later _ _ _) fun _ => .pure _
    rintro a _ ⟨j, rfl, hsame⟩
    exact ⟨_, rfl, hc.warn _ _ hsame⟩
  · exact .pure _

theorem elements_respects (l : Option Location) (words : List Nat) :
    c.onStatement.Respects (elements type l words) := by
  induction words with
  | nil => exact .pure []
  | cons word words ih => exact (element_respects hc type word l).bind fun _ => ih.bind fun _ => .pure _

theorem initializerBytes_respects (e : Expr) : c.onStatement.Respects (initializerBytes pending type e) := by
  have hscalar : c.onStatement.Respects (do let word ← valueOf pending e; element word type e.location) :=
    (valueOf_respects pending e).bind fun word => element_respects hc type word _
  cases e with
  | fill l value count =>
    refine (valueOf_respects pending value).bind fun word => ?_
    refine (element_respects hc type word _).bind fun bytes => ?_
    refine (valueOf_respects pending count).bind fun times => ?_
    refine .ite (Comparison.Respects.bind (.throw _) fun _ => ?_) ?_
    all_goals exact .ite (Comparison.Respects.bind (.throw _) fun _ => .pure _) (.pure _)
  | string l text => exact elements_respects hc type l _
  | integer | float | name | type | sizeof | apply | foreign => exact hscalar

theorem initializersBytes_respects (es : List Expr) :
    c.onStatement.Respects (initializersBytes pending type es) := by
  induction es with
  | nil => exact .pure []
  | cons e es ih => exact (initializerBytes_respects hc pending type e).bind fun _ => ih.bind fun _ => .pure _

end

/-- A name that is bound after a failure is bound in both runs. -/
theorem orBind_respects {α : Type} {step : Processing α} (name : String) (symbol : Symbol)
    (h : c.onStatement.Respects step) : c.onStatement.Respects (orBind name symbol step) := by
  refine .handle (fun fault => define name symbol >>= fun _ => throw fault) h (fun a => ?_) rfl
    (fun _ _ _ => by simp [Comparison.onAssembly]) rfl fun fault => ?_
  · unfold orBind
    rcases step a with ⟨x, b⟩ | ⟨fault, b⟩
    · rfl
    · change (match define name symbol b with | _ => _) = (define name symbol >>= fun _ => throw fault) b
      cases hd : define name symbol b with
      | ok x d => rw [bind_of_ok hd]; rfl
      | error f d => rw [bind_of_error hd]
  · exact (define_respects name symbol).bind fun _ => .throw fault

theorem bindConstant_respects (pending : Pending) (l : Option Location) (name : String) (e : Expr) :
    c.onStatement.Respects (bindConstant pending l name e) :=
  (checkFree_respects name l).bind fun _ =>
    (orBind_respects name _ (valueOf_respects pending e)).bind fun _ => define_respects name _

theorem adaptExcept_respects {ε δ α : Type} {step : EStateM ε Assembly α} (f : ε → δ)
    (h : c.onStatement.Respects step) : c.onStatement.Respects (step.adaptExcept f) := by
  refine .handle (fun e => throw (f e)) h (fun a => ?_) rfl (fun _ _ _ => by simp [Comparison.onAssembly]) rfl
    fun e => .throw (f e)
  unfold EStateM.adaptExcept
  cases step a <;> rfl

theorem embed_respects (env : Surroundings) (l : Option Location) (name path : String) :
    c.onStatement.Respects (embed env l name path) := by
  refine (adaptExcept_respects Obstacle.fault (checkFree_respects name l)).bind fun _ => ?_
  split
  · exact .throw _
  · refine adaptExcept_respects _ (get_respects (fun _ _ => rfl) fun _ => (appendRegion_respects name l _).bind fun _ => ?_)
    exact modify_respects (fun _ => rfl) fun _ _ => rfl

section

variable (hc : c.Recording)

include hc

theorem bindRegion_respects (pending : Pending) (l : Option Location) (name : String) (type : ElementType)
    (es : List Expr) : c.onStatement.Respects (bindRegion pending l name type es) := by
  refine (checkFree_respects name l).bind fun _ => get_respects (fun _ _ => rfl) fun _ => ?_
  refine (orBind_respects name _ (initializersBytes_respects hc pending type es)).bind fun bytes => ?_
  exact appendRegion_respects name l bytes

theorem process_respects (env : Surroundings) (pending : Pending) (s : Statement) :
    c.onStatement.Respects (process env pending s) := by
  cases s with
  | label => exact .pure ()
  | instruction l name argument => exact adaptExcept_respects _ (appendInstruction_respects pending l name argument)
  | constant l name e => exact adaptExcept_respects _ (bindConstant_respects pending l name e)
  | region l name type es => exact adaptExcept_respects _ (bindRegion_respects hc pending l name type es)
  | embedding l name path => exact embed_respects env l name path
  | foreign => exact .throw _

/-! ### Second pass -/

/-- What comes of the obstacle to a statement in the pass. -/
def settle : Obstacle → Assembling Unit
  | .fault fault => if fault.isFatal then throw (.fatal fault) else reporting (Journal.report fault)
  | .search e => throw (.search e)

/-- Both runs report the fault of a statement, or both are stopped by it or by a search. -/
theorem attempt_respects {step : Attempt Unit} (h : c.onStatement.Respects step) :
    c.onPass.Respects (attempt step) := by
  refine .handle settle h (fun a => ?_) rfl (fun _ _ _ => by simp [Comparison.onAssembly]) rfl fun obstacle => ?_
  · unfold attempt
    rcases step a with ⟨x, b⟩ | ⟨fault | e, b⟩
    · rfl
    · dsimp only [settle]
      split <;> rfl
    · rfl
  · cases obstacle with
    | fault fault => exact .ite (.throw _) (reporting_respects (Journal.report_respects hc fault))
    | search e => exact .throw _

theorem processAll_respects (env : Surroundings) (pending : Pending) (ss : List Statement) :
    c.onPass.Respects (processAll env pending ss) := by
  induction ss with
  | nil => exact .pure ()
  | cons s rest ih => exact (attempt_respects hc (process_respects hc env pending s)).bind fun _ => ih

theorem generate_respects (settings : AssemblySettings) (program : Program) :
    c.onPass.Respects (generate settings program) := by
  refine (processAll_respects hc settings.surroundings _ program.statements).bind fun _ => .get ?_ fun a => ?_
  · rintro a b hab
    rw [happened_eq hc hab]
    obtain ⟨j, rfl, -⟩ := hab
    rfl
  · exact .ite (.pure none) ((reporting_respects (Journal.note_respects _)).bind fun _ => .pure _)

theorem compile_respects (settings : AssemblySettings) (program : Program) :
    c.onPass.Respects (compile settings program) :=
  (resolve_respects hc settings program).bind fun _ => .ite (generate_respects hc settings program) (.pure none)

end

end Assembly

end AvmAssembler
