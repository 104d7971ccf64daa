import AvmAssembler.Proofs.Assembly.Redefinition
import AvmAssembler.Proofs.Runs
import AvmAssembler.Proofs.Source.Origins
import AvmAssembler.Session

/-! # What a run does not handle

A run that writes nothing reads its source, compiles it and answers whether it succeeded. Whatever is wrong with the
source is recorded, with two exceptions that stop the run without a report: a numeral that is taken for one but has no
value, and a path of which it cannot be told whether it leads to a file.
-/

namespace AvmAssembler

open Diagnostics

/-! ## Reports of a run -/

/-- The report can be one of a run: of reading its source or of compiling its statements. -/
def Report.IsOfRun (r : Report) : Prop := r.IsOfReading ∨ ∃ ss, r.IsOfCompiling ss

theorem LexicalFault.message_head (f : LexicalFault) : f.message.toList.head? ∈ ['u', 'e', 'c'].map some := by
  cases f
  all_goals
    unfold message
    simp [toString_text]

theorem Fault.IsSyntactic.message_head {f : Fault} (h : f.IsSyntactic) :
    f.message.toList.head? ∈ ['u', 'e', 'c', 'i'].map some := by
  obtain ⟨cause, l⟩ := f
  cases cause with
  | lexical f =>
    have hhead := f.message_head
    rw [List.mem_map] at hhead ⊢
    obtain ⟨c, hc, heq⟩ := hhead
    exact ⟨c, List.mem_append_left ['i'] hc, heq⟩
  | unexpected | unclosedForm | wideInteger | unknownMnemonic =>
    unfold message Cause.message
    simp [toString_text]
  | _ => exact h.elim

def Report.initials : List Char := ['u', 'e', 'c', 'i', '\'', 's', 'f', 't', 'd', 'm', 'r', 'p']

theorem Report.IsOfRun.message_head {r : Report} (h : r.IsOfRun) (herror : r.isError = true) :
    r.head.message.toList.head? ∈ initials.map some := by
  cases r with
  | warning message l => cases herror
  | missingEntry label => simp [head, initials, toString_text]
  | fault f =>
    change f.message.toList.head? ∈ _
    rcases h with (hsyntactic | ⟨path, failure, notes, searched, hcause⟩) | ⟨ss, hstatement | ⟨name, d, hcause, -⟩⟩
    · exact List.map_subset some (by simp [initials]) hsyntactic.message_head
    · rw [Fault.message, hcause]
      unfold Cause.message
      simp [initials, toString_text]
    · rcases hstatement.message_head with hhead | hcause
      · exact List.map_subset some (by simp [initials]) hhead
      · rw [Fault.message, hcause]
        unfold Cause.message
        simp [initials]
    · rw [Fault.message, hcause]
      unfold Cause.message
      simp [initials, toString_text]

/-- The two failures of arithmetic that are no diagnostics do not occur. -/
theorem Report.IsOfRun.message_ne {r : Report} (h : r.IsOfRun) (herror : r.isError = true) :
    r.head.message ≠ Cause.negativeShift.message ∧ r.head.message ≠ Cause.zeroToNegative.message := by
  have hhead := h.message_head herror
  constructor
  · intro heq
    have hn : Cause.negativeShift.message.toList.head? = some 'n' := rfl
    rw [heq, hn] at hhead
    simp [initials] at hhead
  · intro heq
    have hzero : Cause.zeroToNegative.message.toList.head? = some '0' := rfl
    rw [heq, hzero] at hhead
    simp [initials] at hhead

/-- What a run does not handle, told by what its phase was stopped with. -/
def Escape.Carries (N : Abort → Prop) : Escape → Prop
  | .numeral e => N (.numeral e)
  | .search e => N (.search e)
  | _ => False

/-- A search that is cut short while a program is compiled is one for a file that a unit within reach embeds. -/
theorem Escape.Carries.of_comes {env : Surroundings} {file text : String} {p : Program}
    (h : ∀ s ∈ p.statements, Unit.Comes env file text s) {escape : Escape}
    (hescape : escape.Carries (Assembly.Unhandled env p.statements)) :
    escape.Carries (Program.Unreadable env file text) := by
  cases escape with
  | search e =>
    obtain ⟨s, hs, l, name, path, rfl, hfind⟩ := hescape
    obtain ⟨unit, source, hreach, hembedding, hfile⟩ := (h _ hs).embedding
    rw [hfile, Option.getD_some] at hfind
    exact .inr ⟨unit, source, path, hreach, .inr hembedding, hfind⟩
  | numeral | limit | range | name => exact hescape.elim

namespace Session

/-! ## Phases -/

variable {s : Session} {ds : Diagnostics} {α : Type}

/-- What a run has recorded when it ends with an answer: it is read back as reports of a run, and without success there
is an error, or the limit was exceeded. -/
def Reported (ds : Diagnostics) (success : Bool) (t : Session) : Prop :=
  Explains Report.IsOfRun ds t.journal.diagnostics ∧
    (success = false → t.hasErrors = true ∨ t.journal.diagnostics.truncated = true)

def PhaseReported (ds : Diagnostics) (t : Session) : Phase α → Prop
  | .finished _ => GrownBy Report.IsOfRun ds t.journal.diagnostics
  | .stopped _ => Reported ds false t
  | .faulted fault => GrownBy Report.IsOfRun ds t.journal.diagnostics ∧ Report.IsOfRun (.fault fault)

theorem hasErrors_of_grown {r : Report} (hr : r.isError = true) (h : Grown [r] ds s.journal.diagnostics) :
    s.hasErrors = true :=
  decide_eq_true (Nat.zero_lt_of_lt (h.errorCount_lt hr))

/-- An aborted phase has recorded why, or it has left a fault to be recorded; only numerals and searches escape. -/
theorem ofAbort_leads {N : Abort → Prop} {abort : Abort}
    (h : Aborted Report.IsOfRun N ds s.journal.diagnostics abort) :
    Leads (ofAbort abort : Run (Phase α)) s (fun phase t => PhaseReported ds t phase)
      (fun escape _ => escape.Carries N) := by
  have hexplains := h.explains
  cases abort with
  | recorded =>
    obtain ⟨f, ms, -, -, -, hgrown⟩ := h
    exact Leads.of_pure ⟨hexplains, fun _ => .inl (hasErrors_of_grown rfl hgrown)⟩
  | limit e =>
    obtain ⟨r, ms, -, -, hcut⟩ := h
    exact Leads.of_pure ⟨hexplains, fun _ => .inr hcut.truncated⟩
  | fatal f => exact Leads.of_pure ⟨h.2.2.2, h.2.2.1⟩
  | numeral e | search e => exact Leads.of_throw h.1

/-- A program that is read finishes its phase. -/
theorem readProgram_cases {path source : String} {ok : Phase Program → Session → Prop}
    {failed : Escape → Session → Prop}
    (hok : ∀ program j, Program.read s.surroundings path source s.journal = .ok program j →
      ok (.finished program) { s with journal := j })
    (hfailed : ∀ abort j, Program.read s.surroundings path source s.journal = .error abort j →
      Leads (ofAbort abort) { s with journal := j } ok failed) : Leads (readProgram path source) s ok failed := by
  cases hresult : Program.read s.surroundings path source s.journal with
  | ok program j => exact Leads.of_ok (readProgram_of_ok hresult) (hok program j hresult)
  | error abort j => exact Leads.of_eq (readProgram_of_error hresult) (hfailed abort j hresult)

/-- Compiling finishes its phase, with an image or without; the symbols are kept in any case. -/
theorem generateImage_cases {program : Program} {ok : Phase (Option Image) → Session → Prop}
    {failed : Escape → Session → Prop}
    (hok : ∀ image? a, Assembly.compile s.assemblySettings program { journal := s.journal } = .ok image? a →
      ok (.finished image?) { s with journal := a.journal, symbols := some a.symbols })
    (hfailed : ∀ abort a, Assembly.compile s.assemblySettings program { journal := s.journal } = .error abort a →
      Leads (ofAbort abort) { s with journal := a.journal, symbols := some a.symbols } ok failed) :
    Leads (generateImage program) s ok failed := by
  cases hresult : Assembly.compile s.assemblySettings program { journal := s.journal } with
  | ok image? a => exact Leads.of_ok (generateImage_of_ok hresult) (hok image? a hresult)
  | error abort a => exact Leads.of_eq (generateImage_of_error hresult) (hfailed abort a hresult)

theorem readProgram_leads (path source : String) (s : Session) :
    Leads (readProgram path source) s (fun phase t => PhaseReported s.journal.diagnostics t phase)
      (fun escape _ => escape.Carries (Program.Unreadable s.surroundings path source)) := by
  have hread := Program.read_records s.surroundings path source s.journal
  refine readProgram_cases (fun program j hresult => ?_) fun abort j hresult => ?_
  · exact GrownBy.mono (hread.at_ok hresult) fun _ => .inl
  · have haborted : Aborted Report.IsOfRun (Program.Unreadable s.surroundings path source) s.journal.diagnostics
        j.diagnostics abort := (hread.at_error hresult).mono (fun _ => .inl) fun _ h => h
    exact ofAbort_leads haborted

/-- The statements that are read are those of units within reach, and the files stay as they are. -/
theorem readProgram_comes (path source : String) (s : Session) :
    Leads (readProgram path source) s
      (fun phase t => t.surroundings = s.surroundings ∧
        ∀ program, phase = .finished program → ∀ st ∈ program.statements, Unit.Comes s.surroundings path source st)
      fun _ _ => True := by
  have hcomes := Program.read_comes s.surroundings path source s.journal
  refine readProgram_cases (fun program j hresult => ⟨rfl, ?_⟩) fun abort j _ => ?_
  · rintro _ ⟨⟩
    exact hcomes.at_ok hresult
  · refine (ofAbort_unfinished abort _).mono ?_ fun _ _ h => h
    rintro phase _ ⟨rfl, hunfinished⟩
    exact ⟨rfl, fun program hphase => absurd hphase (hunfinished program)⟩

/-- Generating an image leaves nothing unhandled but searches, and without an image there is an error. -/
theorem generateImage_leads (program : Program) (h : GrownBy Report.IsOfRun ds s.journal.diagnostics) :
    Leads (generateImage program) s
      (fun phase t => PhaseReported ds t phase ∧ (phase = .finished none → t.hasErrors = true))
      (fun escape _ => escape.Carries (Assembly.Unhandled s.surroundings program.statements)) := by
  have hrecorded := Assembly.compile_recorded s.assemblySettings program s.journal
  have hanswer := Assembly.compile_answer s.assemblySettings program { journal := s.journal }
  refine generateImage_cases (fun image? a hresult => ⟨?_, ?_⟩) fun abort a hresult => ?_
  · exact h.trans (GrownBy.mono (hrecorded.at_ok hresult) fun _ h => .inr ⟨_, h⟩)
  · rintro ⟨⟩
    have hnone : false = !a.journal.diagnostics.happened := hanswer.at_ok hresult
    simpa [hasErrors] using hnone
  · have haborted : Aborted Report.IsOfRun (Assembly.Unhandled s.surroundings program.statements) ds
        a.journal.diagnostics abort := ((hrecorded.at_error hresult).mono (fun _ h => .inr ⟨_, h⟩) fun _ h => h).after h
    refine ((ofAbort_leads haborted).and (ofAbort_unfinished abort _)).mono ?_ fun _ _ h => h.1
    exact fun _ _ h => ⟨h.1, fun hphase => absurd hphase (h.2.2 none)⟩

/-- The last fault is counted, or it exceeds the limit. -/
theorem recordLast_leads {fault : Fault} (h : GrownBy Report.IsOfRun ds s.journal.diagnostics)
    (hfault : Report.IsOfRun (.fault fault)) :
    Leads (recordLast fault) s (fun _ t => Reported ds false t) (fun _ _ => False) := by
  have hadd : Leads (add fault) s.journal.diagnostics (fun _ es => Grown [.fault fault] s.journal.diagnostics es)
      (fun _ es => Cut (.fault fault) s.journal.diagnostics es) :=
    recordAll_report (r := .fault fault) rfl s.journal.diagnostics
  cases hresult : add fault s.journal.diagnostics with
  | ok x es =>
    have hgrown := hadd.at_ok hresult
    refine Leads.of_ok (x := ()) (t := s.withDiagnostics es) (by simp only [recordLast, hresult]) ⟨?_, fun _ => ?_⟩
    · exact (h.trans (.single hgrown hfault)).explains
    · exact .inl (hasErrors_of_grown rfl hgrown)
  | error e es =>
    have hcut := hadd.at_error hresult
    refine Leads.of_ok (x := ()) (t := s.withDiagnostics es) (by simp only [recordLast, hresult]) ⟨?_, fun _ => ?_⟩
    · exact Cut.explains hfault h hcut
    · exact .inr hcut.truncated

/-- A phase that has not finished closes the run without success. -/
theorem afterPhase_leads {path : String} {phase : Phase α} {next : α → Run Bool} {failed : Escape → Session → Prop}
    (h : PhaseReported ds s phase)
    (hnext : ∀ x, phase = .finished x → Leads (next x) s (fun success t => Reported ds success t) failed) :
    Leads (afterPhase path phase next) s (fun success t => Reported ds success t) failed := by
  cases phase with
  | finished x => exact hnext x rfl
  | stopped reason => exact Leads.of_modify_bind (Leads.of_pure h)
  | faulted fault =>
    refine Leads.of_bind (recordLast_leads h.1 h.2) ?_ fun _ _ h => h.elim
    exact fun _ _ ht => Leads.of_pure ht

/-- A run that writes nothing gives an answer and has recorded why it failed, or it is stopped by a numeral or a
search. -/
theorem assemble_leads (source path : String) (s : Session) :
    Leads (assemble source path) s (fun success t => Reported s.journal.diagnostics.reset success t)
      (fun escape _ => escape.Carries (Program.Unreadable s.surroundings path source)) := by
  rw [assemble]
  apply Leads.of_modify_bind
  apply Leads.of_modify_bind
  refine Leads.of_bind ((readProgram_leads path source _).and (readProgram_comes path source _)) ?_ fun _ _ h => h.1
  rintro phase t ⟨hphase, hsurroundings, hcomes⟩
  refine afterPhase_leads hphase ?_
  rintro program rfl
  apply Leads.of_get
  split
  · rename_i hhappened
    exact Leads.of_pure ⟨GrownBy.explains hphase, fun _ => .inl hhappened⟩
  · apply Leads.of_modify_bind
    refine Leads.of_bind (generateImage_leads program hphase) ?_ fun _ _ h => ?_
    swap
    · exact .of_comes (hcomes program rfl) (hsurroundings ▸ h)
    rintro phase u ⟨hphase, hnone⟩
    refine afterPhase_leads hphase ?_
    rintro image rfl
    cases image with
    -- Compiling without an image leaves no reason behind but the errors that it has recorded.
    | none => exact Leads.of_pure ⟨GrownBy.explains hphase, fun _ => .inl (hnone rfl)⟩
    | some image =>
      have hreported : Reported s.journal.diagnostics.reset true { u with image := some image } :=
        ⟨GrownBy.explains hphase, by simp⟩
      exact Leads.of_ok rfl hreported

/-- Every source is dealt with, with two exceptions. One is an unreadable numeral in it or in a unit that reading it may
come to: a decimal numeral of more than 4300 digits, or a numeral with a digit that has no value. The other is a search
that is cut short, at a path that is too long or passes a closed directory: for the source itself, or for a file that
such a unit includes or embeds. Otherwise reading gives a program, or it is stopped by a fatal fault, which is recorded
last, or by the limit of diagnostics; and a run that writes nothing ends with an answer. Without success an error is
recorded, or the limit was exceeded. The two failures of arithmetic that are no diagnostics do not occur. -/
theorem assemble_reports (s : Session) (source path : String) :
    (∀ j, Leads (Program.read s.surroundings path source) j (fun _ _ => True)
      (fun abort k => match abort with
        | .recorded => ∃ f : Fault, f.isFatal = true ∧ ofFault f <:+ k.diagnostics.entries
        | .limit _ => k.diagnostics.truncated = true
        | .fatal _ => False
        | .numeral _ => Program.HasUnreadable s.surroundings path source
        | .search e => Program.HasUnsearchable s.surroundings path source e ∧
            (e.error = .nameTooLong ∨ e.error = .accessDenied))) ∧
    Leads (assemble source path) s
      (fun success t => (success = false → t.hasErrors = true ∨ t.journal.diagnostics.truncated = true) ∧
        ∀ d ∈ t.journal.diagnostics.errors,
          d.message ≠ Cause.negativeShift.message ∧ d.message ≠ Cause.zeroToNegative.message)
      (fun escape _ => match escape with
        | .numeral _ => Program.HasUnreadable s.surroundings path source
        | .search e => Program.HasUnsearchable s.surroundings path source e ∧
            (e.error = .nameTooLong ∨ e.error = .accessDenied)
        | _ => False) := by
  constructor
  · intro j
    refine (Program.read_records s.surroundings path source j).mono (fun _ _ _ => trivial) fun abort k h => ?_
    cases abort with
    | recorded =>
      obtain ⟨f, ms, hfatal, -, -, hgrown⟩ := h
      refine ⟨f, hfatal, ?_⟩
      rw [hgrown.entries, List.flatMap_singleton]
      exact List.suffix_append _ _
    | limit e =>
      obtain ⟨r, ms, -, -, hcut⟩ := h
      exact hcut.truncated
    | fatal f => exact h.1
    | numeral e => exact h.1
    | search e =>
      have hsearch : Program.HasUnsearchable s.surroundings path source e := h.1
      exact ⟨hsearch, hsearch.error_eq⟩
  · refine (assemble_leads source path s).mono ?_ fun escape _ h => ?_
    swap
    · cases escape with
      | numeral | limit | range | name => exact h
      | search e =>
        have hsearch : Program.HasUnsearchable s.surroundings path source e := h
        exact ⟨hsearch, hsearch.error_eq⟩
    rintro success t ⟨hexplains, hsuccess⟩
    refine ⟨hsuccess, fun d hd => ?_⟩
    obtain ⟨hmem, herror⟩ := List.mem_filter.1 hd
    obtain ⟨r, hr, hisError, rfl⟩ := hexplains.of_error hmem rfl (by simpa using herror)
    exact hr.message_ne hisError

end Session

/-! ## A numeral by itself -/

section

variable {radix : Radix} {u : Terminal} {e : NumeralError} {text : String}

theorem Phrase.check_unreadable {α β : Type} {tokens rest : List Token} {a : α} {p : Phrase α tokens}
    {f : α → Except (Fault ⊕ NumeralError) β} (h : p.val = .read a rest) (hf : f a = .error (.inr e)) :
    (p.check f).val = .unreadable e := by
  obtain ⟨o, ho⟩ := p
  subst h
  simp [check, hf]

/-- A statement that is an unreadable numeral is not read. -/
theorem Grammar.item_unreadable {t : Token} (hkind : t.kind = .integer radix)
    (he : Numeral.integer radix t.text = .error e) (l : Location) (rest : List Token) :
    (item (.complete l) t rest).val = .unreadable e := by
  have hatom : atom t = .error (.inr e) := by simp [atom, hkind, integerLiteral, he]
  have hstarts : startsExpression t = true := by simp [startsExpression, hkind]
  have hexpression : (expression (.complete l) (t :: rest)).val = .unreadable e := by
    rw [expression]
    simp only [hkind, hstarts, if_true, reduceCtorEq, if_false]
    exact Phrase.check_unreadable (take_read l t rest) hatom
  unfold item
  split
  all_goals first
    | (simp [hkind] at *; done)
    | skip
  simp only [hstarts, if_true, Phrase.map, hexpression]
  rfl

/-- A source that is an unreadable numeral stops reading, and nothing is recorded. -/
theorem Program.read_unreadable (h : Spells text.toList [u]) (hkind : u.kind = .integer radix)
    (he : Numeral.integer radix u.text = .error e) {env : Surroundings} {file : String}
    (hfile : Unit.CanStart env file) (j : Journal) :
    ∃ k, Program.read env file text j = .error (.numeral e) k ∧ k.diagnostics = j.diagnostics := by
  obtain ⟨tokens, l, htokens, hterminals⟩ := tokenize_of_spells h file
  obtain ⟨t, rfl, rfl⟩ := List.map_eq_singleton_iff.1 hterminals
  have hstart : Unit.start file text j = .ok ([t], .complete l) { j with log := j.log ++ [.parsing file] } := by
    simp only [Unit.start, htokens]
    rfl
  obtain ⟨active, hactive⟩ := hfile
  have hitems : ∀ k, Unit.items env active file (.complete l) [t] k =
      .error (.numeral e) k := by
    intro k
    have hitem := Grammar.item_unreadable (by simpa using hkind) (by simpa using he) l []
    rw [Unit.items]
    rcases hphrase : Grammar.item (.complete l) t [] with ⟨o, ho⟩
    obtain rfl : o = .unreadable e := by rw [← hitem, hphrase]
    rfl
  have hunit : Unit.read env active file text j =
      .error (.numeral e) { j with log := j.log ++ [.parsing file] } := by
    rw [Unit.read, bind_of_ok hstart]
    exact bind_of_error (hitems _)
  exact ⟨{ j with log := j.log ++ [.parsing file] }, by rw [Program.read_of_active hactive, bind_of_error hunit], rfl⟩

theorem Session.assemble_unreadable (h : Spells text.toList [u]) (hkind : u.kind = .integer radix)
    (he : Numeral.integer radix u.text = .error e) {path : String} {s : Session}
    (hpath : Unit.CanStart s.surroundings path) :
    ∃ t, assemble text path none s = .error (.numeral e) t ∧
      t.journal.diagnostics = s.journal.diagnostics.reset := by
  obtain ⟨k, hread, hsame⟩ := Program.read_unreadable h hkind he hpath
    ⟨s.journal.diagnostics.reset, s.journal.log ++ [.assembling path]⟩
  exact ⟨_, assemble_of_escape hread rfl none, hsame⟩

/-- A superscript digit is taken for a decimal numeral and has no value. -/
theorem Session.assemble_superscript :
    ∃ t, Session.assemble "²" FileTree.inputName none {} = .error (.numeral (.badInteger "²")) t ∧
      t.journal.diagnostics.entries = [] := by
  have hspells : Spells "²".toList [⟨.integer .decimal, "²"⟩] :=
    spells_intercalate Prod.fst Prod.snd [(⟨.integer .decimal, "²"⟩, "²")] (by decide +kernel)
  have hbad : Numeral.integer .decimal "²" = .error (.badInteger "²") := by rfl
  obtain ⟨t, hassemble, hdiagnostics⟩ := 
    Session.assemble_unreadable hspells rfl hbad (s := {}) (Unit.canStart_input _)
  exact ⟨t, hassemble, congrArg Diagnostics.entries hdiagnostics⟩

end

end AvmAssembler
