import AvmAssembler.Proofs.Assembly.Layout
import AvmAssembler.Proofs.Fatality

/-! # Fatal faults of compiling

The first pass has no fatal faults. The second pass does not record its own but stops with it, so nothing that compiling
records is fatal.
-/

namespace AvmAssembler.Assembly

open Diagnostics

/-- Every fault is worded by its cause, and a fatal one is not recorded before the last. -/
abbrev EscalatesOwn {α : Type} (step : Assembling α) (a : Assembly) : Prop :=
  Escalates (fun a => a.journal.diagnostics) Report.IsOwn (fun _ => True) step a

theorem reporting_escalates {α : Type} {r : Reporting α} {a : Assembly}
    (h : Escalates Journal.diagnostics Report.IsOwn (fun _ => True) r a.journal) : EscalatesOwn (reporting r) a :=
  (reporting_leads a h).mono (fun _ _ h => h.2) fun _ _ h => h.2

/-! ## First pass -/

theorem bindLabels_escalates (address : Nat) (declared : Pending) (ss : List Statement) (a : Assembly) :
    EscalatesOwn (bindLabels address declared ss) a := by
  induction ss generalizing address declared a with
  | nil => exact Escalates.pure _
  | cons s rest ih =>
    have hreport : ∀ name first l, EscalatesOwn (do
        reporting (Journal.report ⟨.redefinition name first, l⟩)
        bindLabels address declared rest) a := fun name first l =>
      Escalates.bind (reporting_escalates (Journal.report_escalates rfl trivial _)) fun _ b => ih address declared b
    cases s with
    | label l name =>
      rw [bindLabels]
      split
      · exact hreport _ _ _
      · apply Leads.of_get
        split
        · exact Leads.of_modify_bind (ih address declared _)
        · rename_i fault hdefine
          obtain ⟨symbol, -, rfl⟩ := SymbolTable.define_eq_error.1 hdefine
          exact hreport _ _ _
    | instruction l name argument =>
      rw [bindLabels]
      exact ih (address + 1) declared a
    | constant l name e | region l name type es | embedding l name path =>
      rw [bindLabels]
      · simp only [Statement.lateName?]
        split <;> exact ih address _ a
      all_goals simp
    | foreign l kind =>
      rw [bindLabels]
      · exact ih address _ a
      all_goals simp

theorem resolve_escalates (settings : AssemblySettings) (program : Program) (a : Assembly) :
    EscalatesOwn (resolve settings program) a := by
  refine Escalates.bind (bindLabels_escalates 0 [] program.statements a) fun count b => ?_
  apply Leads.of_get
  split
  · apply Leads.of_modify_bind
    apply Leads.of_get
    refine Escalates.bind (reporting_escalates (Journal.note_escalates _ _)) fun _ c => ?_
    exact Leads.of_get (Leads.of_pure (.refl _))
  · have hmissing : EscalatesOwn (reporting (Journal.recording
        (record (Report.missingEntry settings.entryLabel).head))) b := by
      have hown : Report.IsOwn (.missingEntry settings.entryLabel) := trivial
      refine reporting_escalates ((Journal.recording_leads b.journal hown
        (record_missingEntry settings.entryLabel _)).mono ?_ fun _ _ h => h.ended)
      exact fun _ _ hgrown => .single hgrown ⟨hown, fun h => h⟩
    exact Escalates.bind hmissing fun _ c => Escalates.pure false

/-! ## Second pass -/

section

variable {P : Report → Prop} {settings : AssemblySettings} {program : Program} {env : Surroundings} {pending : Pending}
  {ss : List Statement} {a b : Assembly}

theorem Quiet.passes (h : Quiet a b) (hwarning : ∀ message l, P (.warning message l)) :
    GrownBy (Report.Passes P) a.journal.diagnostics b.journal.diagnostics :=
  h.warned.mono fun r hr => by cases r <;> first | exact hr.elim | exact ⟨hwarning _ _, fun h => h⟩

/-- Besides warnings, the second pass records only faults with which its statements fail on the way. -/
theorem processAll_escalates (hwarning : ∀ message l, P (.warning message l))
    (hfault : ∀ s ∈ ss, ∀ b, Steps a b →
      Leads (process env pending s) b (fun _ _ => True) fun obstacle _ => ∀ fault, obstacle = .fault fault →
        P (.fault fault)) :
    Escalates (fun a => a.journal.diagnostics) P (fun _ => True) (processAll env pending ss) a := by
  induction ss generalizing a with
  | nil => exact Escalates.pure ()
  | cons s rest ih =>
    have hprocess := ((process_leads env pending s a).and (hfault s (by simp) a .refl)).mono
      (fun _ _ h => h.1) fun _ _ h => h
    refine Leads.of_bind (attempt_leads hprocess) ?_ ?_
    · rintro _ b (⟨g, hg, hb⟩ | ⟨fault, b', ⟨hfails, hP⟩, hfatal, hb, hgrown⟩)
      · refine (ih fun s' hs' c hc => hfault s' (by simp [hs']) c (.head (.of_effect hg hb) hc)).behind ?_
        exact hb.passes hwarning
      · have hsteps : Steps a b := Fails.steps hfails hb
        obtain ⟨g, hg, hquiet⟩ := hfails
        refine (ih fun s' hs' c hc => hfault s' (by simp [hs']) c (hsteps.trans hc)).behind ?_
        exact (hquiet.passes hwarning).trans (.single hgrown ⟨hP fault rfl, by simp [Report.IsFatal, hfatal]⟩)
    · rintro e b (⟨fault, b', ⟨⟨g, hg, hquiet⟩, hP⟩, hb, hlast⟩ | ⟨e', rfl, ⟨rfl, -⟩, -⟩)
      · exact (hlast.mono (fun r hr => hr ▸ hP fault rfl) fun _ _ => trivial).ended.after (hquiet.passes hwarning)
      · exact Last.ended ⟨trivial, rfl⟩

theorem generate_escalates_of (hwarning : ∀ message l, P (.warning message l))
    (hfault : ∀ s ∈ program.statements, ∀ pending b, Steps a b →
      Leads (process settings.surroundings pending s) b (fun _ _ => True) fun obstacle _ =>
        ∀ fault, obstacle = .fault fault → P (.fault fault)) :
    Escalates (fun a => a.journal.diagnostics) P (fun _ => True) (generate settings program) a := by
  rw [generate_eq]
  refine Escalates.bind (processAll_escalates hwarning fun s hs => hfault s hs _) fun _ b => ?_
  exact (conclude_leads b).mono (fun _ _ h => h.1.passes hwarning) fun _ _ h => h.elim

end

theorem Failure.isOwn {s : Statement} {fault : Fault} {g : Growth} {a : Assembly} (h : Failure a s fault g)
    (hlaid : a.LaidOut) : fault.cause.IsOwn := by
  have hown : ∀ {cause : Cause}, cause.IsOfStatement → cause.IsOwn := by
    intro cause hcause
    cases cause <;> first | exact hcause.elim | trivial
  cases h with
  | taken => trivial
  | constant _ hfault | region _ hfault | embedding _ hfault | nameless _ hfault => exact hown (hfault hlaid.hasSizes)

theorem generate_escalates (settings : AssemblySettings) (program : Program) {a : Assembly} (hlaid : a.LaidOut) :
    EscalatesOwn (generate settings program) a := by
  refine generate_escalates_of (fun _ _ => trivial) fun s _ pending b hsteps => ?_
  refine (process_leads _ pending s b).mono (fun _ _ _ => trivial) ?_
  rintro _ _ hstops fault rfl
  obtain ⟨g, hg, -⟩ := hstops
  exact hg.isOwn (hlaid.steps hsteps)

end AvmAssembler.Assembly
