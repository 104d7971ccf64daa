import AvmAssembler.Proofs.Assembly.Relocation
import AvmAssembler.Proofs.Runs
import AvmAssembler.Proofs.Source.Lines
import AvmAssembler.Proofs.Source.Respacing
import AvmAssembler.Proofs.Source.Wording

/-! # The spacing of source text

How the tokens of a source are spread over lines, and which comments stand between them, makes no difference to a run but
for the locations in what it reports.
-/

namespace AvmAssembler.Session

open Correspondence
open Assembly (endState)

section

variable (f : Location → Location)

/-- The sessions differ at most in the places of their reports and of their symbols. -/
def AlikeUpTo (s t : Session) : Prop :=
  ∃ j symbols, t = { s with journal := j, symbols := symbols } ∧ s.journal.relocate f = j.relocate f ∧
    s.symbols.map (SymbolTable.relocate f) = symbols.map (SymbolTable.relocate f)

/-- Runs in sessions that differ at most in places. -/
abbrev alike : Correspondence Escape Session where
  same := AlikeUpTo f
  failed := Eq

/-- The same while a phase is under way. -/
abbrev alikeInPhase : Correspondence Abort Session where
  same := AlikeUpTo f
  failed abort abort' := abort.relocate f = abort'.relocate f

def Phase.relocate {α β : Type} (move : α → β) : Phase α → Phase β
  | .finished x => .finished (move x)
  | .stopped reason => .stopped reason
  | .faulted fault => .faulted (fault.relocate f)

abbrev SamePhase {α β : Type} (move : α → β) (phase phase' : Phase α) : Prop :=
  phase.relocate f move = phase'.relocate f move

end

variable {f : Location → Location} {α β : Type} {move : α → β}

/-! ## Phases -/

theorem ofAbort_alike {abort abort' : Abort} (h : abort.relocate f = abort'.relocate f) :
    (alike f).Mirrors (SamePhase f move) (ofAbort abort) (ofAbort abort') := by
  cases abort with
  | recorded =>
    cases abort' with
    | recorded => exact .pure rfl
    | limit | fatal | numeral | search => cases h
  | limit e =>
    cases abort' with
    | limit e' =>
      obtain rfl : e = e' := Abort.limit.inj h
      exact .pure rfl
    | recorded | fatal | numeral | search => cases h
  | fatal fault =>
    cases abort' with
    | fatal fault' => exact .pure (congrArg Phase.faulted (Abort.fatal.inj h))
    | recorded | limit | numeral | search => cases h
  | numeral e =>
    cases abort' with
    | numeral e' =>
      obtain rfl : e = e' := Abort.numeral.inj h
      exact .throw rfl
    | recorded | limit | fatal | search => cases h
  | search e =>
    cases abort' with
    | search e' =>
      obtain rfl : e = e' := Abort.search.inj h
      exact .throw rfl
    | recorded | limit | fatal | numeral => cases h

theorem carryOut_alike {step step' : EStateM Abort Session α}
    (h : (alikeInPhase f).Mirrors (fun x y => move x = move y) step step') :
    (alike f).Mirrors (SamePhase f move) (carryOut step) (carryOut step') := by
  refine .of_cases fun s t hst => ?_
  rcases h.cases hst with ⟨x, u, y, v, hs, ht, hxy, huv⟩ | ⟨abort, u, abort', v, hs, ht, habort, huv⟩
  · exact .inl ⟨.finished x, u, .finished y, v, by rw [carryOut, hs], by rw [carryOut, ht], congrArg Phase.finished hxy, huv⟩
  · rw [carryOut, carryOut, hs, ht]
    exact (ofAbort_alike habort).cases huv

theorem note_alike (e : Event) : (alike f).Mirrors Eq (note e) (note e) := by
  refine .modify ?_
  rintro s _ ⟨j, symbols, rfl, hj, hsymbols⟩
  refine ⟨{ j with log := j.log ++ [e] }, symbols, rfl, ?_, hsymbols⟩
  obtain ⟨hdiagnostics, hlog⟩ := Journal.mk.inj hj
  simp [Journal.relocate, hdiagnostics, hlog]

theorem readProgram_alike {path source source' : String}
    (htokens : (tokenize path source).1.map (Token.relocate f) = (tokenize path source').1.map (Token.relocate f))
    (hending : (tokenize path source).2.relocate f = (tokenize path source').2.relocate f) :
    (alike f).Mirrors (SamePhase f (Program.relocate f)) (readProgram path source) (readProgram path source') := by
  rw [readProgram_eq, readProgram_eq]
  refine carryOut_alike (.part ?_ fun _ _ (h : (Journal.alike f).failed _ _) => h)
  rintro s _ ⟨j, symbols, rfl, hj, hsymbols⟩
  exact ⟨Program.read_alike htokens hending, hj, fun k k' hk => ⟨k', symbols, rfl, hk, hsymbols⟩⟩

theorem generateImage_alike {program program' : Program} (hfile : ∀ l, (f l).file = l.file)
    (h : program.relocate f = program'.relocate f) :
    (alike f).Mirrors (SamePhase f id) (generateImage program) (generateImage program') := by
  let compiling : Correspondence Abort Assembly := .ofImages (Assembly.relocate f) (Abort.relocate f)
  have hcompile (settings : AssemblySettings) :
      compiling.Mirrors Eq (Assembly.compile settings program) (Assembly.compile settings program') :=
    .of_common id id ((Assembly.compile_relocate hfile settings program).mono fun _ _ h => h.symm)
      ((h ▸ Assembly.compile_relocate hfile settings program').mono fun _ _ h => h.symm)
  rw [generateImage_eq, generateImage_eq]
  refine carryOut_alike (.part ?_ fun _ _ (h : compiling.failed _ _) => h)
  rintro s _ ⟨j, symbols, rfl, hj, hsymbols⟩
  refine ⟨hcompile _, congrArg (fun k => ({ journal := k } : Assembly)) hj, fun a a' ha => ?_⟩
  exact ⟨a'.journal, some a'.symbols, rfl, congrArg Assembly.journal ha, congrArg (fun b : Assembly => some b.symbols) ha⟩

theorem writeImage_alike (image : Image) (output : Path) :
    (alike f).Mirrors Eq (writeImage image output) (writeImage image output) := by
  have hwritten (image : Image) (output : Path) (result : Except WriteError Unit) :
      (alike f).Mirrors Eq (afterWrite image output result) (afterWrite image output result) := by
    unfold afterWrite
    split
    · exact (note_alike _).bind fun _ _ _ => .pure rfl
    · exact .pure rfl
    · exact .throw rfl
    · exact .throw rfl
  rintro s _ ⟨j, symbols, rfl, hj, hsymbols⟩
  exact hwritten image output (image.write s.settings.executable output s.tree).2 _ _ ⟨j, symbols, rfl, hj, hsymbols⟩

theorem recordLast_alike {fault fault' : Fault} (h : fault.relocate f = fault'.relocate f) :
    (alike f).Mirrors Eq (recordLast fault) (recordLast fault') := by
  have hadd : (ofImages (Diagnostics.relocate f) id).Mirrors Eq (Diagnostics.add fault) (Diagnostics.add fault') :=
    .of_common id id ((Diagnostics.add_relocate fault).mono fun _ _ h => h.symm)
      ((h ▸ Diagnostics.add_relocate fault').mono fun _ _ h => h.symm)
  rintro s _ ⟨j, symbols, rfl, hj, hsymbols⟩
  obtain ⟨hdiagnostics, hlog⟩ := Journal.mk.inj hj
  have hend : (endState (Diagnostics.add fault) s.journal.diagnostics).relocate f =
      (endState (Diagnostics.add fault') j.diagnostics).relocate f := by
    rcases hadd.cases hdiagnostics with ⟨x, ds, y, es, hs, ht, -, hsame⟩ | ⟨e, ds, e', es, hs, ht, -, hsame⟩
    · simp only [endState, hs, ht]
      exact hsame
    · simp only [endState, hs, ht]
      exact hsame
  refine Leads.of_ok (recordLast_eq fault s) ⟨(), _, recordLast_eq fault' _, rfl, _, symbols, rfl, ?_, hsymbols⟩
  exact congrArg₂ Journal.mk hend hlog

theorem afterPhase_alike {path : String} {phase phase' : Phase α} (h : SamePhase f move phase phase')
    {next next' : α → Run Bool} (hnext : ∀ x y, move x = move y → (alike f).Mirrors Eq (next x) (next' y)) :
    (alike f).Mirrors Eq (afterPhase path phase next) (afterPhase path phase' next') := by
  cases phase with
  | finished x =>
    cases phase' with
    | finished y => exact hnext x y (Phase.finished.inj h)
    | stopped | faulted => cases h
  | stopped reason =>
    cases phase' with
    | stopped reason' =>
      obtain rfl : reason = reason' := Phase.stopped.inj h
      exact (note_alike _).bind fun _ _ _ => .pure rfl
    | finished | faulted => cases h
  | faulted fault =>
    cases phase' with
    | faulted fault' => exact (recordLast_alike (Phase.faulted.inj h)).bind fun _ _ _ => .pure rfl
    | finished | stopped => cases h

theorem deliver_alike (path : String) (output : Option Path) (image : Image) :
    (alike f).Mirrors Eq (deliver path output image) (deliver path output image) := by
  have hend (phase : Phase Unit) : (alike f).Mirrors Eq
      (afterPhase path phase fun _ => do modify fun s => { s with image := some image }; return true)
      (afterPhase path phase fun _ => do modify fun s => { s with image := some image }; return true) := by
    have hself : SamePhase f id phase phase := rfl
    have hstore : (alike f).Mirrors Eq (modify fun s => { s with image := some image })
        (modify fun s => { s with image := some image }) := by
      refine .modify ?_
      rintro s _ ⟨j, symbols, rfl, hj, hsymbols⟩
      exact ⟨j, symbols, rfl, hj, hsymbols⟩
    exact afterPhase_alike hself fun _ _ _ => hstore.bind fun _ _ _ => .pure rfl
  unfold deliver
  cases output with
  | some output => exact (writeImage_alike image output).bind fun phase _ h => h ▸ hend phase
  | none => exact hend (.finished ())

theorem translate_alike {program program' : Program} (hfile : ∀ l, (f l).file = l.file)
    (h : program.relocate f = program'.relocate f) (path : String) (output : Option Path) :
    (alike f).Mirrors Eq (translate path output program) (translate path output program') := by
  have hcount : program.instructionCount = program'.instructionCount := by
    rw [← program.relocate_instructionCount, h, program'.relocate_instructionCount]
  refine .get ?_
  rintro s _ ⟨j, symbols, rfl, hj, hsymbols⟩
  have hhappened : s.journal.diagnostics.happened = j.diagnostics.happened :=
    congrArg (fun k => k.diagnostics.happened) hj
  dsimp only
  rw [hhappened, hcount]
  refine .ite (.pure rfl) ?_
  refine (note_alike _).bind fun _ _ _ => ?_
  refine (generateImage_alike hfile h).bind fun phase phase' hphase => ?_
  refine afterPhase_alike hphase ?_
  rintro image? _ rfl
  cases image? with
  | none => exact .pure rfl
  | some image => exact deliver_alike path output image

/-- Sources with the same tokens, apart from places, are assembled alike. -/
theorem assemble_respaced (hfile : ∀ l, (f l).file = l.file) {source source' path : String}
    (htokens : (tokenize path source).1.map (Token.relocate f) = (tokenize path source').1.map (Token.relocate f))
    (hending : (tokenize path source).2.relocate f = (tokenize path source').2.relocate f) (output : Option Path) :
    (alike f).Mirrors Eq (assemble source path output) (assemble source' path output) := by
  have hrun : (alike f).Mirrors Eq
      (do
        note (.assembling path)
        afterPhase path (← readProgram path source) (translate path output))
      (do
        note (.assembling path)
        afterPhase path (← readProgram path source') (translate path output)) := by
    refine (note_alike _).bind fun _ _ _ => ?_
    refine (readProgram_alike htokens hending).bind fun phase phase' hphase => ?_
    exact afterPhase_alike hphase fun p p' hp => translate_alike hfile hp path output
  rintro s _ ⟨j, symbols, rfl, hj, hsymbols⟩
  let t : Session := { s with journal := j, symbols := symbols }
  have hcleared : AlikeUpTo f s.cleared t.cleared :=
    ⟨t.cleared.journal, none, rfl, congrArg (fun k => Journal.mk k.diagnostics.reset k.log) hj, rfl⟩
  rw [assemble_eq source' path output]
  exact Leads.of_eq (assemble_eq source path output s) (hrun s.cleared t.cleared hcleared)

/-- Runs that mirror each other answer alike, and leave sessions that are alike. -/
theorem answer_of_mirrors {run run' : Run α} {s t : Session} (h : (alike f).Mirrors Eq run run')
    (hst : AlikeUpTo f s t) :
    answer run' t = answer run s ∧ AlikeUpTo f (endState run s) (endState run' t) := by
  rcases h.cases hst with ⟨x, u, _, v, hs, ht, rfl, huv⟩ | ⟨e, u, _, v, hs, ht, rfl, huv⟩
  · exact ⟨by simp only [answer, hs, ht], by simpa only [endState, hs, ht] using huv⟩
  · exact ⟨by simp only [answer, hs, ht], by simpa only [endState, hs, ht] using huv⟩

/-- How the tokens of a source are spaced makes no difference: sources whose tokens have the same kinds and texts, up to
and with the end of the text or the first malformed token, have the same answer under the same path, or the same escapes.
They lead to the same image and the same files, and what is reported of them agrees one by one in severity and message. -/
theorem assemble_of_wording {source source' path : String} (output : Option Path) (s : Session)
    (h : wording (tokenize path source) = wording (tokenize path source')) :
    let first := endState (assemble source path output) s
    let second := endState (assemble source' path output) s
    answer (assemble source' path output) s = answer (assemble source path output) s ∧ second.image = first.image ∧
      second.tree = first.tree ∧
      second.journal.diagnostics.entries.map (fun d => (d.severity, d.message)) =
        first.journal.diagnostics.entries.map fun d => (d.severity, d.message) := by
  intro first second
  obtain ⟨htokens, hending⟩ :=
    relocate_fileOnly_of_wording (tokenize_inFile path source) (tokenize_inFile path source') h
  have hfile (l : Location) : l.fileOnly.file = l.file := rfl
  have hself : AlikeUpTo Location.fileOnly s s := ⟨_, _, rfl, rfl, rfl⟩
  obtain ⟨hanswer, j, symbols, hsecond, hj, -⟩ :=
    answer_of_mirrors (assemble_respaced hfile htokens hending output) hself
  have hentries := congrArg (fun k => k.diagnostics.entries.map fun d => (d.severity, d.message)) hj
  simp only [Journal.relocate, Diagnostics.relocate, List.map_map] at hentries
  refine ⟨hanswer, (congrArg Session.image hsecond).trans rfl, (congrArg Session.tree hsecond).trans rfl, ?_⟩
  exact (congrArg (fun t => t.journal.diagnostics.entries.map fun d => (d.severity, d.message)) hsecond).trans
    hentries.symm

/-- A push of a name that is not declared, on one line and on four. -/
theorem assemble_of_wording_lines :
    let source := ".entry psh x"
    let source' := ".entry\npsh\n  # the value\nx\n"
    let first := endState (assemble source "a.asm" none) {}
    let second := endState (assemble source' "a.asm" none) {}
    wording (tokenize "a.asm" source) = wording (tokenize "a.asm" source') ∧
      answer (assemble source' "a.asm" none) {} = answer (assemble source "a.asm" none) {} ∧
      second.image = first.image ∧ second.tree = first.tree ∧
      second.journal.diagnostics.entries.map (fun d => (d.severity, d.message)) =
        first.journal.diagnostics.entries.map fun d => (d.severity, d.message) := by
  intro source source' first second
  have hentry : (Terminal.label "entry").SpelledBy ".entry".toList := by decide +kernel
  have hpush : (Terminal.name "psh").SpelledBy "psh".toList := by decide +kernel
  have hname : (Terminal.name "x").SpelledBy "x".toList := by decide +kernel
  have hline : Spells source.toList [.label "entry", .name "psh", .name "x"] :=
    spells_intercalate Prod.fst Prod.snd [(.label "entry", ".entry"), (.name "psh", "psh"), (.name "x", "x")]
      (List.forall_mem_cons.2 ⟨hentry, List.forall_mem_cons.2 ⟨hpush, List.forall_mem_singleton.2 hname⟩⟩)
  have hcomment : LinesSpell ["  " ++ ("#" ++ " the value")] [] :=
    .comment (by simp [Lexeme.isBlank]) (by decide)
  have hlines : Spells source'.toList [.label "entry", .name "psh", .name "x"] :=
    (LinesSpell.append (.single (.of_spelledBy hentry)) (.append (.single (.of_spelledBy hpush))
      (.append hcomment (.single (.of_spelledBy hname))))).spells
  have hwording : wording (tokenize "a.asm" source) = wording (tokenize "a.asm" source') :=
    (wording_of_spells hline "a.asm").trans (wording_of_spells hlines "a.asm").symm
  exact ⟨hwording, assemble_of_wording none {} hwording⟩

end AvmAssembler.Session
