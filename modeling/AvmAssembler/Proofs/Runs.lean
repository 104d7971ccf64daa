import AvmAssembler.Proofs.Assembly.Layout
import AvmAssembler.Proofs.Recording
import AvmAssembler.Session

/-! # Two runs of sessions side by side

The same source is assembled in two sessions that differ at most in what their collectors record. As long as the
collectors agree, the phases of the runs have the same results, and so have the runs. A run that is cut off by the limit
ends without success.
-/

namespace AvmAssembler.Session

open Assembly (endState)

/-! ## The phases of a run -/

def cleared (s : Session) : Session :=
  { s.withDiagnostics s.journal.diagnostics.reset with image := none, symbols := none }

/-- Log that an image was written, or pass on why it was not. -/
def afterWrite (image : Image) (output : Path) : Except WriteError Unit → Run (Phase Unit)
  | .ok () => do
    note (.wrote output.written image.records.length image.memory.length image.entryPoint)
    pure (.finished ())
  | .error (.fault fault) => pure (.faulted fault)
  | .error (.range e) => throw (.range e)
  | .error .name => throw .name

theorem writeImage_eq (image : Image) (output : Path) (s : Session) :
    writeImage image output s =
      afterWrite image output (image.write s.settings.executable output s.tree).2
        { s with tree := (image.write s.settings.executable output s.tree).1 } := rfl

/-- The end of a run: the image is written if an output is named. -/
def deliver (path : String) (output : Option Path) (image : Image) : Run Bool := do
  let written ← match output with
    | some output => writeImage image output
    | none => pure (.finished ())
  afterPhase path written fun _ => do
    modify fun s => { s with image := some image }
    return true

/-- A run from the point where the program has been read. -/
def translate (path : String) (output : Option Path) (program : Program) : Run Bool := do
  if (← get).journal.diagnostics.happened then return false
  note (.expanded path program.instructionCount)
  afterPhase path (← generateImage program) fun image? => do
    let some image := image? | return false
    deliver path output image

theorem assemble_eq (source path : String) (output : Option Path) (s : Session) :
    assemble source path output s =
      (do
        note (.assembling path)
        afterPhase path (← readProgram path source) (translate path output)) s.cleared := rfl

theorem assemble_begun (source path : String) (output : Option Path) (s : Session) :
    assemble source path output s =
      (readProgram path source >>= fun phase => afterPhase path phase (translate path output))
        { s.cleared with journal := ⟨s.journal.diagnostics.reset, s.journal.log ++ [.assembling path]⟩ } := rfl

section

variable {source path : String} {s : Session} {program : Program} {abort : Abort} {j : Journal} {a : Assembly}

theorem readProgram_of_ok (h : Program.read s.surroundings path source s.journal = .ok program j) :
    readProgram path source s = .ok (.finished program) { s with journal := j } := by
  simp only [readProgram, h]

theorem readProgram_of_error (h : Program.read s.surroundings path source s.journal = .error abort j) :
    readProgram path source s = ofAbort abort { s with journal := j } := by
  simp only [readProgram, h]

theorem generateImage_of_ok {image? : Option Image}
    (h : Assembly.compile s.assemblySettings program { journal := s.journal } = .ok image? a) :
    generateImage program s = .ok (.finished image?) { s with journal := a.journal, symbols := some a.symbols } := by
  simp only [generateImage, h]

theorem generateImage_of_error
    (h : Assembly.compile s.assemblySettings program { journal := s.journal } = .error abort a) :
    generateImage program s = ofAbort abort { s with journal := a.journal, symbols := some a.symbols } := by
  simp only [generateImage, h]

end

theorem assemble_of_read {source path : String} {s : Session} {program : Program} {j : Journal}
    (h : Program.read s.surroundings path source
      ⟨s.journal.diagnostics.reset, s.journal.log ++ [.assembling path]⟩ = .ok program j) (output : Option Path) :
    assemble source path output s = translate path output program { s.cleared with journal := j } := by
  let begun : Session :=
    { s.cleared with journal := ⟨s.journal.diagnostics.reset, s.journal.log ++ [.assembling path]⟩ }
  have hread : readProgram path source begun = .ok (.finished program) { begun with journal := j } := readProgram_of_ok h
  rw [assemble_begun, bind_of_ok hread]
  rfl

theorem assemble_of_escape {source path : String} {s : Session} {abort : Abort} {escape : Escape} {j : Journal}
    (h : Program.read s.surroundings path source
      ⟨s.journal.diagnostics.reset, s.journal.log ++ [.assembling path]⟩ = .error abort j)
    (hescape : (ofAbort abort : Run (Phase Program)) = throw escape) (output : Option Path) :
    assemble source path output s = .error escape { s.cleared with journal := j } := by
  let begun : Session :=
    { s.cleared with journal := ⟨s.journal.diagnostics.reset, s.journal.log ++ [.assembling path]⟩ }
  have hread : readProgram path source begun = .error escape { begun with journal := j } :=
    (readProgram_of_error h).trans (by rw [hescape]; rfl)
  rw [assemble_begun, bind_of_error hread]

/-- A run stops at once if the search for its source is cut short. -/
theorem assemble_of_search {path : String} {s : Session} {e : SearchError}
    (h : Unit.initiallyActive s.surroundings path = .error e) (source : String) (output : Option Path) :
    ∃ t, assemble source path output s = .error (.search e) t ∧
      t.journal.diagnostics = s.journal.diagnostics.reset := by
  have hread (j : Journal) : Program.read s.surroundings path source j = .error (.search e) j := by
    rw [Program.read_of_search h]
    rfl
  exact ⟨_, assemble_of_escape (hread _) rfl output, rfl⟩

/-- A run whose program is read without errors and compiled to an image comes to the end. -/
theorem assemble_of_compile {source path : String} {s : Session} {program : Program} {j : Journal} {image : Image}
    {a : Assembly}
    (hread : Program.read s.surroundings path source
      ⟨s.journal.diagnostics.reset, s.journal.log ++ [.assembling path]⟩ = .ok program j)
    (hclean : j.diagnostics.happened = false)
    (hcompile : Assembly.compile s.assemblySettings program
      { journal := { j with log := j.log ++ [.expanded path program.instructionCount] } } = .ok (some image) a)
    (output : Option Path) :
    assemble source path output s =
      deliver path output image { s with journal := a.journal, image := none, symbols := some a.symbols } := by
  let read : Session := { s.cleared with journal := j }
  let logged : Session :=
    { s.cleared with journal := { j with log := j.log ++ [.expanded path program.instructionCount] } }
  have hlog : note (.expanded path program.instructionCount) read = .ok () logged := rfl
  have hgenerate : generateImage program logged =
      .ok (.finished (some image)) { logged with journal := a.journal, symbols := some a.symbols } :=
    generateImage_of_ok hcompile
  rw [assemble_of_read hread, translate, get_bind, if_neg (by simp [hclean]), bind_of_ok hlog, bind_of_ok hgenerate]
  rfl

theorem deliver_of_write {path : String} {image : Image} {s : Session} {target : Path} {tree : FileTree}
    (h : image.write s.settings.executable target s.tree = (tree, .ok ())) :
    ∃ t, deliver path (some target) image s = .ok true t := by
  have hwrite : writeImage image target s = afterWrite image target (.ok ()) { s with tree := tree } := by
    rw [writeImage_eq, h]
  exact ⟨_, bind_of_ok hwrite⟩

/-- A step on a session, which may be aborted, as a phase of a run. -/
def carryOut {α : Type} (step : EStateM Abort Session α) : Run (Phase α) := fun s =>
  match step s with
  | .ok x u => .ok (.finished x) u
  | .error abort u => ofAbort abort u

theorem readProgram_eq (path source : String) :
    readProgram path source = carryOut (onPart Session.journal (fun s j => { s with journal := j }) id
      fun s => Program.read s.surroundings path source) := by
  funext s
  unfold readProgram carryOut onPart
  dsimp only
  cases Program.read s.surroundings path source s.journal <;> rfl

theorem generateImage_eq (program : Program) :
    generateImage program = carryOut (onPart (fun s => { journal := s.journal })
      (fun s a => { s with journal := a.journal, symbols := some a.symbols }) id
      fun s => Assembly.compile s.assemblySettings program) := by
  funext s
  unfold generateImage carryOut onPart
  dsimp only
  cases Assembly.compile s.assemblySettings program { journal := s.journal } <;> rfl

theorem recordLast_eq (fault : Fault) (s : Session) :
    recordLast fault s = .ok () (s.withDiagnostics (endState (Diagnostics.add fault) s.journal.diagnostics)) := by
  unfold recordLast endState
  cases Diagnostics.add fault s.journal.diagnostics <;> rfl

/-! ## Sessions that are alike -/

/-- The session with other settings of its collector and with another journal. -/
def redirect (s : Session) (limit : Int) (warnings : Bool) (j : Journal) : Session :=
  { s with settings := { s.settings with maxErrors := limit, showWarnings := warnings }, journal := j }

/-- The answer of a run, or what escapes from it. -/
def answer {α : Type} (run : Run α) (s : Session) : Except Escape α :=
  match run s with
  | .ok x _ => .ok x
  | .error e _ => .error e

variable {c : Comparison LimitExceeded Diagnostics} {α β : Type} {givenUp : α → Prop} {givenUp' : β → Prop}

/-- The sessions differ in their collectors alone, and these agree. -/
def Alike (c : Comparison LimitExceeded Diagnostics) (s t : Session) : Prop :=
  ∃ limit warnings j, t = s.redirect limit warnings j ∧ c.onJournal.same s.journal j

def CutOff (c : Comparison LimitExceeded Diagnostics) (s t : Session) : Prop :=
  ∃ refusal, c.cut refusal s.journal.diagnostics t.journal.diagnostics

/-- Something was added to the diagnostics at most. -/
abbrev Later (c : Comparison LimitExceeded Diagnostics) (s t : Session) : Prop :=
  c.later s.journal.diagnostics t.journal.diagnostics

theorem CutOff.later {s t u : Session} (h : CutOff c s t) (hlater : Later c t u) : CutOff c s u := by
  obtain ⟨refusal, hcut⟩ := h
  exact ⟨refusal, c.cut_later hcut hlater⟩

/-- Sessions compared while a phase is under way. -/
def onSession (c : Comparison LimitExceeded Diagnostics) : Comparison Abort Session where
  same := Alike c
  cut abort s t := c.onJournal.cut abort s.journal t.journal
  later := Later c
  later_refl s := c.later_refl s.journal.diagnostics
  later_trans := c.later_trans
  cut_later := c.onJournal.cut_later

variable {run : Run α} {next : α → Run β}

/-- The run has the same outcome in both sessions and leaves them alike, or it is cut off in the first: then it gives
up. -/
def Agree (c : Comparison LimitExceeded Diagnostics) (givenUp : α → Prop) (run : Run α) (s t : Session) : Prop :=
  Leads run s (fun x u => (∃ v, run t = .ok x v ∧ Alike c u v) ∨ givenUp x ∧ Leaves run t (CutOff c u))
    fun e u => ∃ v, run t = .error e v ∧ Alike c u v

theorem Agree.of_eq {whole : Run α} {s t u v : Session} (hs : whole s = run u) (ht : whole t = run v)
    (h : Agree c givenUp run u v) : Agree c givenUp whole s t := by
  simpa only [Agree, Leaves, Leads, hs, ht] using h

theorem Agree.outcome {s t : Session} (h : Agree c givenUp run s t) :
    answer run t = answer run s ∧ Alike c (endState run s) (endState run t) ∨
      ∃ x, answer run s = .ok x ∧ givenUp x ∧ CutOff c (endState run s) (endState run t) := by
  cases hs : run s with
  | ok x u =>
    have hu : endState run s = u := by simp only [endState, hs]
    rcases Leads.at_ok h hs with ⟨v, ht, huv⟩ | ⟨hx, hleaves⟩
    · exact .inl ⟨by simp only [answer, hs, ht], by simpa only [endState, hs, ht] using huv⟩
    · exact .inr ⟨x, by simp only [answer, hs], hx, hu ▸ Assembly.Call.endState_of_leads hleaves⟩
  | error e u =>
    obtain ⟨v, ht, huv⟩ := Leads.at_error h hs
    exact .inl ⟨by simp only [answer, hs, ht], by simpa only [endState, hs, ht] using huv⟩

/-- Sessions that are alike agree in the run, and the run alone only adds to what is recorded. -/
structure Keeps (c : Comparison LimitExceeded Diagnostics) (givenUp : α → Prop) (run : Run α) : Prop where
  agree {s t : Session} : Alike c s t → Agree c givenUp run s t
  later (s : Session) : Leaves run s (Later c s)

namespace Keeps

/-- A run that was given up in one phase is given up in the next, and nothing is recorded any more. -/
theorem bind (h : Keeps c givenUp run) (hnext : ∀ x, Keeps c givenUp' (next x))
    (hgivenUp : ∀ x s, givenUp x →
      Leads (next x) s (fun y t => givenUp' y ∧ t.journal.diagnostics = s.journal.diagnostics) fun _ _ => False) :
    Keeps c givenUp' (run >>= next) where
  agree {s t} hst := by
    have hrun := h.agree hst
    cases hs : run s with
    | ok x u =>
      rcases Leads.at_ok hrun hs with ⟨v, ht, huv⟩ | ⟨hx, hleaves⟩
      · exact ((hnext x).agree huv).of_eq (bind_of_ok hs) (bind_of_ok ht)
      · refine Leads.of_ok_bind hs ((hgivenUp x u hx).mono ?_ fun _ _ h => h.elim)
        rintro y u' ⟨hy, heq⟩
        have hcut : Leaves run t (CutOff c u') :=
          hleaves.mono fun v ⟨refusal, hcut⟩ => ⟨refusal, heq ▸ hcut⟩
        exact .inr ⟨hy, hcut.bind fun z v hv => ((hnext z).later v).mono fun _ => hv.later⟩
    | error e u =>
      obtain ⟨v, ht, huv⟩ := Leads.at_error hrun hs
      exact Leads.of_error (bind_of_error hs) ⟨v, bind_of_error ht, huv⟩
  later s := (h.later s).bind fun x t ht => ((hnext x).later t).mono fun _ hlater => c.later_trans ht hlater

theorem pure (x : α) : Keeps c givenUp (pure x) where
  agree {_ t} hst := Leads.of_pure (.inl ⟨t, rfl, hst⟩)
  later s := Leads.of_pure (c.later_refl s.journal.diagnostics)

theorem throw (e : Escape) : Keeps c givenUp (throw e : Run α) where
  agree {_ t} hst := Leads.of_throw ⟨t, rfl, hst⟩
  later s := Leads.of_throw (c.later_refl s.journal.diagnostics)

/-- Only what the runs agree in may be read from the session. -/
theorem get {next : Session → Run β} (hread : ∀ s t, Alike c s t → next s = next t)
    (hnext : ∀ s, Keeps c givenUp' (next s)) : Keeps c givenUp' (MonadState.get >>= next) where
  agree {s t} hst := by
    have hs : (MonadState.get >>= next) s = next s s := rfl
    have ht : (MonadState.get >>= next) t = next s t := congrFun (hread s t hst).symm t
    exact ((hnext s).agree hst).of_eq hs ht
  later s := (hnext s).later s

end Keeps

theorem note_keeps (e : Event) : Keeps c (fun _ => False) (note e) where
  agree := by
    rintro s _ ⟨limit, warnings, j, rfl, hsame⟩
    exact Leads.of_modify (.inl ⟨_, rfl, limit, warnings, _, rfl, hsame⟩)
  later s := Leads.of_modify (c.later_refl s.journal.diagnostics)

/-! ## Phases -/

def Phase.IsStopped (phase : Phase α) : Prop := ∃ reason, phase = .stopped reason

theorem ofAbort_keeps {stopped : Phase α → Prop} (abort : Abort) : Keeps c stopped (ofAbort abort) := by
  cases abort with
  | recorded | limit | fatal => exact .pure _
  | numeral e | search e => exact .throw _

theorem ofAbort_leaves (abort : Abort) (s : Session) {P : Session → Prop} (h : P s) :
    Leaves (ofAbort abort : Run (Phase α)) s P := by
  cases abort with
  | recorded | limit | fatal => exact Leads.of_pure h
  | numeral e | search e => exact Leads.of_throw h

theorem ofAbort_unfinished (abort : Abort) (s : Session) :
    Leads (ofAbort abort : Run (Phase α)) s (fun phase t => t = s ∧ ∀ x, phase ≠ .finished x) fun _ _ => True := by
  cases abort with
  | recorded | limit | fatal => exact Leads.of_pure ⟨rfl, by simp⟩
  | numeral | search => exact Leads.of_throw trivial

/-- A phase is stopped when the run is cut off in it. -/
theorem Keeps.carryOut {step : EStateM Abort Session α} (h : (onSession c).Respects step) :
    Keeps c Phase.IsStopped (carryOut step) where
  agree {s t} hst := by
    have hleaves {Q : Session → Prop} (h : Leaves step t Q) : Leaves (Session.carryOut step) t Q := by
      cases ht : step t with
      | ok x v => exact Leads.of_ok (by rw [Session.carryOut, ht]) (h.at_ok ht)
      | error abort v => exact Leads.of_eq (by rw [Session.carryOut, ht]) (ofAbort_leaves abort v (h.at_error ht))
    rcases (h.agree hst).cases with ⟨x, u, v, hs, ht, huv⟩ | ⟨abort, u, v, hs, ht, huv⟩ | ⟨abort, u, hs, hcut⟩
    · exact Leads.of_ok (by rw [Session.carryOut, hs]) (.inl ⟨v, by rw [Session.carryOut, ht], huv⟩)
    · exact ((ofAbort_keeps abort).agree huv).of_eq (by rw [Session.carryOut, hs]) (by rw [Session.carryOut, ht])
    · obtain ⟨v, refusal, rfl, -⟩ := hcut.exists
      refine Leads.of_ok (t := u) (by rw [Session.carryOut, hs]; rfl) (.inr ⟨⟨_, rfl⟩, hleaves (hcut.mono fun w hw => ?_)⟩)
      obtain ⟨refusal', -, hw⟩ := hw
      exact ⟨refusal', hw⟩
  later s := by
    have hlater := h.later s
    cases hs : step s with
    | ok x u => exact Leads.of_ok (by rw [Session.carryOut, hs]) (hlater.at_ok hs)
    | error abort u => exact Leads.of_eq (by rw [Session.carryOut, hs]) (ofAbort_leaves abort u (hlater.at_error hs))

section

variable (hc : c.Recording)

include hc

theorem readProgram_keeps (path source : String) : Keeps c Phase.IsStopped (readProgram path source) := by
  rw [readProgram_eq]
  refine .carryOut (.part (fun _ => Program.read_respects hc _ path source) ?_ (fun _ _ _ _ _ h => h) fun _ _ h => h)
  rintro s _ ⟨limit, warnings, j, rfl, hsame⟩
  exact ⟨rfl, hsame, fun _ k h => ⟨limit, warnings, k, rfl, h⟩⟩

theorem generateImage_keeps (program : Program) : Keeps c Phase.IsStopped (generateImage program) := by
  rw [generateImage_eq]
  refine .carryOut (.part (fun _ => Assembly.compile_respects hc _ program) ?_ ?_ ?_)
  · rintro s _ ⟨limit, warnings, j, rfl, hsame⟩
    refine ⟨rfl, ⟨j, rfl, hsame⟩, ?_⟩
    rintro a _ ⟨k, rfl, h⟩
    exact ⟨limit, warnings, k, rfl, h⟩
  · rintro _ _ abort a b ⟨_, ⟨⟩, hcut⟩
    exact hcut
  · exact fun _ _ h => h

theorem recordLast_keeps (fault : Fault) : Keeps c (fun _ => True) (recordLast fault) where
  agree := by
    rintro s _ ⟨limit, warnings, j, rfl, hsame⟩
    have hreport : c.Respects (Diagnostics.add fault) := hc.report (r := .fault fault) rfl
    refine Leads.of_ok (recordLast_eq fault s) ?_
    rcases (hreport.agree hsame).cases with ⟨x, ds, es, hs, ht, huv⟩ | ⟨e, ds, es, hs, ht, huv⟩ | ⟨e, ds, hs, hcut⟩
    · refine .inl ⟨_, recordLast_eq fault _, limit, warnings, _, rfl, ?_⟩
      change c.same (endState _ s.journal.diagnostics) (endState _ j.diagnostics)
      simpa only [endState, hs, ht] using huv
    · refine .inl ⟨_, recordLast_eq fault _, limit, warnings, _, rfl, ?_⟩
      change c.same (endState _ s.journal.diagnostics) (endState _ j.diagnostics)
      simpa only [endState, hs, ht] using huv
    · refine .inr ⟨trivial, Leads.of_ok (recordLast_eq fault _) ⟨e, ?_⟩⟩
      have hends : endState (Diagnostics.add fault) s.journal.diagnostics = ds := by simp only [endState, hs]
      exact hends ▸ Assembly.Call.endState_of_leads hcut
  later s := by
    have hreport : c.Respects (Diagnostics.add fault) := hc.report (r := .fault fault) rfl
    exact Leads.of_ok (recordLast_eq fault s) (Assembly.Call.endState_of_leads (hreport.later s.journal.diagnostics))

theorem afterPhase_keeps (path : String) (phase : Phase α) {next : α → Run Bool}
    (hnext : ∀ x, Keeps c (· = false) (next x)) : Keeps c (· = false) (afterPhase path phase next) := by
  cases phase with
  | finished x => exact hnext x
  | stopped reason => exact (note_keeps _).bind (fun _ => .pure false) fun _ _ h => h.elim
  | faulted fault => exact (recordLast_keeps hc fault).bind (fun _ => .pure false) fun _ _ _ => Leads.of_pure ⟨rfl, rfl⟩

/-- After a phase that was stopped, the run ends without success. -/
theorem bind_afterPhase_keeps {run : Run (Phase α)} (path : String) {next : α → Run Bool}
    (h : Keeps c Phase.IsStopped run) (hnext : ∀ x, Keeps c (· = false) (next x)) :
    Keeps c (· = false) (run >>= fun phase => afterPhase path phase next) := by
  refine h.bind (fun phase => afterPhase_keeps hc path phase hnext) ?_
  rintro _ s ⟨reason, rfl⟩
  exact Leads.of_modify_bind (Leads.of_pure ⟨rfl, rfl⟩)

omit hc in
theorem afterWrite_keeps (image : Image) (output : Path) (result : Except WriteError Unit) :
    Keeps c Phase.IsStopped (afterWrite image output result) := by
  unfold afterWrite
  split
  · exact (note_keeps _).bind (fun _ => .pure _) fun _ _ h => h.elim
  · exact .pure _
  · exact .throw _
  · exact .throw _

omit hc in
/-- Both runs write to the same tree in the same way. -/
theorem writeImage_keeps (image : Image) (output : Path) : Keeps c Phase.IsStopped (writeImage image output) where
  agree := by
    rintro s _ ⟨limit, warnings, j, rfl, hsame⟩
    let written := image.write s.settings.executable output s.tree
    have halike : Alike c { s with tree := written.1 } ({ s with tree := written.1 }.redirect limit warnings j) :=
      ⟨limit, warnings, j, rfl, hsame⟩
    exact ((afterWrite_keeps image output written.2).agree halike).of_eq rfl rfl
  later s := (afterWrite_keeps image output _).later { s with tree := _ }

theorem deliver_keeps (path : String) (output : Option Path) (image : Image) :
    Keeps c (· = false) (deliver path output image) := by
  have hend (_ : Unit) : Keeps c (· = false) (do modify fun s => { s with image := some image }; return true) := by
    constructor
    · rintro s _ ⟨limit, warnings, j, rfl, hsame⟩
      exact Leads.of_ok rfl (.inl ⟨_, rfl, limit, warnings, j, rfl, hsame⟩)
    · exact fun s => Leads.of_ok rfl (c.later_refl s.journal.diagnostics)
  unfold deliver
  cases output with
  | some output => exact bind_afterPhase_keeps hc path (writeImage_keeps image output) hend
  | none => exact bind_afterPhase_keeps hc path (.pure _) hend

theorem translate_keeps (path : String) (output : Option Path) (program : Program) :
    Keeps c (· = false) (translate path output program) := by
  refine .get ?_ fun s => ?_
  · rintro s _ ⟨limit, warnings, j, rfl, hsame⟩
    rw [hc.happened hsame]
    rfl
  · split
    · exact .pure false
    · refine (note_keeps _).bind (fun _ => ?_) fun _ _ h => h.elim
      refine bind_afterPhase_keeps hc path (generateImage_keeps hc program) fun image? => ?_
      cases image? with
      | none => exact .pure false
      | some image => exact deliver_keeps hc path output image

/-- The run of the same source in two sessions that are alike once they are cleared: it has the same answer in both and
leaves them alike, or it is cut off in the first and ends without success there. -/
theorem assemble_alike (source path : String) (output : Option Path) {s t : Session}
    (h : Alike c s.cleared t.cleared) :
    answer (assemble source path output) t = answer (assemble source path output) s ∧
        Alike c (endState (assemble source path output) s) (endState (assemble source path output) t) ∨
      answer (assemble source path output) s = .ok false ∧
        CutOff c (endState (assemble source path output) s) (endState (assemble source path output) t) := by
  have hkeeps := (note_keeps (.assembling path)).bind
    (fun _ => bind_afterPhase_keeps hc path (readProgram_keeps hc path source) (translate_keeps hc path output))
    fun _ _ h => h.elim
  rcases (hkeeps.agree h).outcome with hsame | ⟨_, hanswer, rfl, hcut⟩
  · exact .inl hsame
  · exact .inr ⟨hanswer, hcut⟩

end

end AvmAssembler.Session
