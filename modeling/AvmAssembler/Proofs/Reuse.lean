import AvmAssembler.Proofs.Verdict

/-! # Sessions that are used again

Whatever a session has been used for, and however its runs have ended, its settings are the same and its collector still
obeys them. Since a run starts from an empty collector and without results, it then takes the same course as in a session
that has not been used before.
-/

namespace AvmAssembler

open Diagnostics

/-! ## The settings of a collector -/

namespace Diagnostics

structure Obeys (limit : Int) (warnings : Bool) (ds : Diagnostics) : Prop where
  limit : ds.limit = limit
  showWarnings : ds.showWarnings = warnings

variable {limit : Int} {warnings : Bool} {ds : Diagnostics}

theorem Obeys.reset_eq (h : Obeys limit warnings ds) : ds.reset = { limit := limit, showWarnings := warnings } := by
  rw [reset, h.limit, h.showWarnings]

theorem Obeys.warn (h : Obeys limit warnings ds) (d : Diagnostic) : Obeys limit warnings (ds.warn d) := by
  unfold Diagnostics.warn
  split
  · exact ⟨h.limit, h.showWarnings⟩
  · exact h

theorem Obeys.record (h : Obeys limit warnings ds) (d : Diagnostic) :
    Leaves (record d) ds (Obeys limit warnings) := by
  by_cases hwarning : d.severity = .warning
  · exact Leads.of_ok (record_of_warning hwarning) (h.warn d)
  by_cases hrefused : ds.limit ≤ ds.counted
  · exact Leads.of_error (record_of_le hwarning hrefused) ⟨h.limit, h.showWarnings⟩
  · exact Leads.of_ok (record_of_not_le hwarning hrefused) ⟨h.limit, h.showWarnings⟩

theorem Obeys.recordAll (h : Obeys limit warnings ds) (list : List Diagnostic) :
    Leaves (recordAll list) ds (Obeys limit warnings) := by
  induction list generalizing ds with
  | nil => exact Leads.of_pure h
  | cons d rest ih => exact (h.record d).bind fun _ _ hrest => ih hrest

/-- Recording does not change the settings of a collector. -/
theorem obeys_recording (limit : Int) (warnings : Bool) :
    Comparison.Recording (.ofInvariant (Obeys limit warnings)) where
  happened h := h.1 ▸ rfl
  warn _ _ h := ⟨h.1 ▸ rfl, h.2.warn _⟩
  warn_later _ _ _ := trivial
  report _ := .of_invariant fun _ h => h.recordAll _

end Diagnostics

namespace Session

open Assembly (endState)

variable {α : Type} {s t : Session} {settings : Settings}

/-! ## The settings of a session -/

theorem afterPhase_settings {path : String} {phase : Phase α} {next : α → Run Bool} (ht : t.settings = settings)
    (hnext : ∀ x, Leaves (next x) t (·.settings = settings)) :
    Leaves (afterPhase path phase next) t (·.settings = settings) := by
  cases phase with
  | finished x => exact hnext x
  | stopped reason => exact Leads.of_modify_bind (Leads.of_pure ht)
  | faulted fault => exact Leads.of_ok_bind (recordLast_eq fault t) (Leads.of_pure ht)

theorem afterWrite_settings {image : Image} {output : Path} {result : Except WriteError Unit}
    (ht : t.settings = settings) : Leaves (afterWrite image output result) t (·.settings = settings) := by
  unfold afterWrite
  split
  · exact Leads.of_modify_bind (Leads.of_pure ht)
  · exact Leads.of_pure ht
  · exact Leads.of_throw ht
  · exact Leads.of_throw ht

theorem deliver_settings {path : String} {output : Option Path} {image : Image} (ht : t.settings = settings) :
    Leaves (deliver path output image) t (·.settings = settings) := by
  have hend (phase : Phase Unit) {u : Session} (hu : u.settings = settings) :
      Leaves (afterPhase path phase fun _ => do modify fun s => { s with image := some image }; return true) u
        (·.settings = settings) :=
    afterPhase_settings hu fun _ => Leads.of_modify_bind (Leads.of_pure hu)
  unfold deliver
  cases output with
  | none => exact hend (.finished ()) ht
  | some target =>
    have hwrite : Leaves (writeImage image target) t (·.settings = settings) :=
      Leads.of_eq (writeImage_eq image target t) (afterWrite_settings ht)
    exact hwrite.bind fun phase _ hu => hend phase hu

theorem translate_settings {path : String} {output : Option Path} {program : Program} (ht : t.settings = settings) :
    Leaves (translate path output program) t (·.settings = settings) := by
  apply Leads.of_get
  split
  · exact Leads.of_pure ht
  · apply Leads.of_modify_bind
    refine Leads.of_bind (generateImage_untouched program _) (fun phase u hu => ?_) fun _ u hu => hu.settings.trans ht
    have hsettings : u.settings = settings := hu.settings.trans ht
    refine afterPhase_settings hsettings fun image? => ?_
    cases image? with
    | none => exact Leads.of_pure hsettings
    | some image => exact deliver_settings hsettings

theorem assemble_settings (source path : String) (output : Option Path) (s : Session) :
    (endState (assemble source path output) s).settings = s.settings := by
  refine Assembly.Call.endState_of_leads (P := fun t : Session => t.settings = s.settings) ?_
  refine Leads.of_eq (assemble_eq source path output s) (Leads.of_modify_bind ?_)
  refine Leads.of_bind (readProgram_untouched path source _) (fun phase u hu => ?_) fun _ _ hu => hu.settings
  exact afterPhase_settings hu.settings fun _ => translate_settings hu.settings

theorem leaves_of_endState {run : Run α} {P : Session → Prop} (h : P (endState run s)) : Leaves run s P := by
  cases hrun : run s with
  | ok x t => exact Leads.of_ok hrun (by simpa only [endState, hrun] using h)
  | error e t => exact Leads.of_error hrun (by simpa only [endState, hrun] using h)

structure Configured (settings : Settings) (s : Session) : Prop where
  settings_eq : s.settings = settings
  collector : Obeys settings.maxErrors settings.showWarnings s.journal.diagnostics

theorem start_configured (settings : Settings) (tree : FileTree) : Configured settings (start settings tree) :=
  ⟨rfl, rfl, rfl⟩

/-- A run in a session with these settings and the same run in a session that starts over the same files. -/
theorem Configured.alike (h : Configured settings s) (source path : String) (output : Option Path) :
    let run := assemble source path output
    answer run (start settings s.tree) = answer run s ∧
      Alike (.ofInvariant (Obeys settings.maxErrors settings.showWarnings)) (endState run s)
        (endState run (start settings s.tree)) := by
  have hcleared : Alike (.ofInvariant (Obeys settings.maxErrors settings.showWarnings)) s.cleared
      (start settings s.tree).cleared := by
    obtain ⟨rfl, hcollector⟩ := h
    exact ⟨s.settings.maxErrors, s.settings.showWarnings, (start s.settings s.tree).cleared.journal, rfl,
      hcollector.reset_eq.symm, hcollector.limit, hcollector.showWarnings⟩
  rcases assemble_alike (obeys_recording _ _) source path output hcleared with hsame | ⟨-, _, ⟨⟩⟩
  exact hsame

theorem Configured.assemble (h : Configured settings s) (source path : String) (output : Option Path) :
    Configured settings (endState (Session.assemble source path output) s) where
  settings_eq := (assemble_settings source path output s).trans h.settings_eq
  collector := by
    obtain ⟨-, -, -, -, -, -, hobeys⟩ := h.alike source path output
    exact hobeys

theorem Configured.unreadableSource (h : Configured settings s) (path : Path) (reason : String) :
    Leaves (unreadableSource path reason) s (Configured settings) := by
  have hreset : Obeys settings.maxErrors settings.showWarnings s.journal.diagnostics.reset :=
    ⟨h.collector.limit, h.collector.showWarnings⟩
  have hrecord := hreset.record ⟨.error, s!"cannot read '{path.written}': {reason}", none⟩
  cases hresult : Diagnostics.record ⟨.error, s!"cannot read '{path.written}': {reason}", none⟩
      s.journal.diagnostics.reset with
  | ok x ds =>
    have hrun : Session.unreadableSource path reason s = .ok false (s.withDiagnostics ds) := by
      simp only [Session.unreadableSource, hresult]
    exact Leads.of_ok hrun ⟨h.settings_eq, hrecord.at_ok hresult⟩
  | error e ds =>
    have hrun : Session.unreadableSource path reason s = .error (.limit e) (s.withDiagnostics ds) := by
      simp only [Session.unreadableSource, hresult]
    exact Leads.of_error hrun ⟨h.settings_eq, hrecord.at_error hresult⟩

theorem Configured.assembleFile (h : Configured settings s) (path : Path) (output : Option Path) :
    Leaves (Session.assembleFile path output) s (Configured settings) := by
  apply Leads.of_get
  split
  · exact Leads.of_throw h
  · exact h.unreadableSource path _
  · split
    · exact h.unreadableSource path _
    · exact leaves_of_endState (h.assemble _ _ _)

/-! ## Uses of a session -/

/-- What happens to a session and its files from outside. -/
inductive Use where
  | assemble (source path : String) (output : Option Path)
  | assembleText (source path : String)
  | assembleFile (path : Path) (output : Option Path)
  /-- The files become others. -/
  | files (tree : FileTree)

/-- The session after a use, whether that has given an answer or something has escaped from it. -/
def after (s : Session) : Use → Session
  | .assemble source path output => endState (Session.assemble source path output) s
  | .assembleText source path => endState (Session.assembleText source path) s
  | .assembleFile path output => endState (Session.assembleFile path output) s
  | .files tree => { s with tree := tree }

theorem endState_assembleText (source path : String) (s : Session) :
    endState (assembleText source path) s = endState (assemble source path none) s := by
  unfold endState
  cases hrun : assemble source path none s with
  | error e t =>
    have hall : assembleText source path s = .error e t := bind_of_error hrun
    rw [hall]
  | ok success t =>
    have hall : assembleText source path s = .ok (if success then t.image else none) t := by
      refine (bind_of_ok hrun).trans ?_
      cases success <;> rfl
    rw [hall]

theorem Configured.after (h : Configured settings s) (use : Use) : Configured settings (s.after use) := by
  cases use with
  | assemble source path output => exact h.assemble source path output
  | assembleText source path =>
    rw [Session.after, endState_assembleText]
    exact h.assemble source path none
  | assembleFile path output => exact Assembly.Call.endState_of_leads (h.assembleFile path output)
  | files tree => exact ⟨h.settings_eq, h.collector⟩

theorem Configured.foldl_after (h : Configured settings s) (uses : List Use) :
    Configured settings (uses.foldl Session.after s) := by
  induction uses generalizing s with
  | nil => exact h
  | cons use uses ih => exact ih (h.after use)

/-- Whatever a session has been used for, the next run gives the answer, or lets the same escape, that it would give in a
session that starts with the same settings over the files as they are by then, and it leaves the same image, the same
symbols, the same files and the same diagnostics, with the same report. -/
theorem assemble_reused (settings : Settings) (tree : FileTree) (uses : List Use) (source path : String)
    (output : Option Path) :
    let used := uses.foldl after (start settings tree)
    let fresh := start settings used.tree
    let run := assemble source path output
    answer run used = answer run fresh ∧
      (endState run used).image = (endState run fresh).image ∧
      (endState run used).symbols = (endState run fresh).symbols ∧
      (endState run used).tree = (endState run fresh).tree ∧
      (endState run used).journal.diagnostics = (endState run fresh).journal.diagnostics ∧
      ∀ color, (endState run used).report color = (endState run fresh).report color := by
  intro used fresh run
  have hused : Configured settings used := (start_configured settings tree).foldl_after uses
  obtain ⟨hanswer, limit, warnings, j, hfresh, hdiagnostics, -⟩ := hused.alike source path output
  have hcollector : (endState run used).journal.diagnostics = (endState run fresh).journal.diagnostics :=
    ((congrArg (fun t => t.journal.diagnostics) hfresh).trans hdiagnostics).symm
  refine ⟨hanswer.symm, ?_, ?_, ?_, hcollector, fun color => congrArg (Diagnostics.report color) hcollector⟩
  · exact (congrArg Session.image hfresh).symm
  · exact (congrArg Session.symbols hfresh).symm
  · exact (congrArg Session.tree hfresh).symm

end Session

end AvmAssembler
