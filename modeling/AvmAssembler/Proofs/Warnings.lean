import AvmAssembler.Proofs.Runs

/-! # Hidden warnings

A collector that hides warnings holds what one that shows them holds, less the warnings. Since warnings neither count nor
are refused, both collectors refuse the same reports, and a run takes the same course whether its warnings are shown or
hidden.
-/

namespace AvmAssembler

open Diagnostics

namespace Diagnostics

/-- The collector hides warnings, those recorded so far included. -/
def withoutWarnings (ds : Diagnostics) : Diagnostics :=
  { ds with showWarnings := false, entries := ds.entries.filter fun d => d.severity ≠ .warning }

/-- Collectors that hold the same apart from warnings, which the second hides. Neither run is cut off before the
other. -/
def muting : Comparison LimitExceeded Diagnostics where
  same ds es := ds.showWarnings = true ∧ es = ds.withoutWarnings
  cut _ _ _ := False
  later _ _ := True
  later_refl _ := trivial
  later_trans _ _ := trivial
  cut_later h _ := h

variable {ds es : Diagnostics} {d : Diagnostic}

/-- A warning makes no difference to what is left without warnings. -/
theorem withoutWarnings_push_warning (h : d.severity = .warning) :
    (ds.push d).withoutWarnings = ds.withoutWarnings := by
  simp [push, withoutWarnings, h, List.filter_append]

theorem withoutWarnings_push (h : d.severity ≠ .warning) :
    (ds.push d).withoutWarnings = ds.withoutWarnings.push d := by
  simp [push, withoutWarnings, h, List.filter_append]

theorem warn_muting (h : d.severity = .warning) (hsame : muting.same ds es) :
    muting.same (ds.warn d) (es.warn d) := by
  obtain ⟨hshown, rfl⟩ := hsame
  have hwarn : ds.warn d = ds.push d := by simp [warn, hshown]
  have hhidden : ds.withoutWarnings.warn d = ds.withoutWarnings := by simp [warn, withoutWarnings]
  rw [hwarn, hhidden]
  exact ⟨hshown, (withoutWarnings_push_warning h).symm⟩

theorem record_muting (d : Diagnostic) : muting.Respects (record d) where
  agree {ds _} hsame := by
    by_cases hwarning : d.severity = .warning
    · exact Leads.of_ok (record_of_warning hwarning) ⟨_, record_of_warning hwarning, warn_muting hwarning hsame⟩
    obtain ⟨hshown, rfl⟩ := hsame
    by_cases hrefused : ds.limit ≤ ds.counted
    -- The limit and the count are the same in both, so both refuse.
    · have hrefused' : ds.withoutWarnings.limit ≤ ds.withoutWarnings.counted := hrefused
      exact Leads.of_error (record_of_le hwarning hrefused) (.inl ⟨_, record_of_le hwarning hrefused', hshown, rfl⟩)
    · have hrefused' : ¬ds.withoutWarnings.limit ≤ ds.withoutWarnings.counted := hrefused
      exact Leads.of_ok (record_of_not_le hwarning hrefused)
        ⟨_, record_of_not_le hwarning hrefused', hshown, (withoutWarnings_push hwarning).symm⟩
  later ds := by
    cases hrecord : record d ds with
    | ok x es => exact Leads.of_ok hrecord trivial
    | error e es => exact Leads.of_error hrecord trivial

theorem recordAll_muting (list : List Diagnostic) : muting.Respects (recordAll list) := by
  induction list with
  | nil => exact .pure ()
  | cons d rest ih => exact (record_muting d).bind fun _ => ih

theorem muting_recording : muting.Recording where
  happened hsame := by
    obtain ⟨-, rfl⟩ := hsame
    rfl
  warn _ _ hsame := warn_muting rfl hsame
  warn_later _ _ _ := trivial
  report _ := recordAll_muting _

end Diagnostics

namespace Session

open Assembly (endState)

def withWarnings (s : Session) (shown : Bool) : Session :=
  { s with
    settings := { s.settings with showWarnings := shown }
    journal := { s.journal with diagnostics := { s.journal.diagnostics with showWarnings := shown } } }

theorem cleared_muting (s : Session) : Alike muting (s.withWarnings true).cleared (s.withWarnings false).cleared :=
  ⟨s.settings.maxErrors, false, (s.withWarnings false).cleared.journal, rfl, rfl, rfl⟩

/-- Whatever is assembled, hiding the warnings leaves the answer, or what escapes, as it is, and so the image, the
symbols, the files, the truncation and the number of errors; the diagnostics are the same without the warnings. -/
theorem assemble_withWarnings (s : Session) (source path : String) (output : Option Path) :
    let shown := endState (assemble source path output) (s.withWarnings true)
    let hidden := endState (assemble source path output) (s.withWarnings false)
    answer (assemble source path output) (s.withWarnings false) =
        answer (assemble source path output) (s.withWarnings true) ∧
      hidden.image = shown.image ∧ hidden.symbols = shown.symbols ∧ hidden.tree = shown.tree ∧
      hidden.journal.diagnostics.truncated = shown.journal.diagnostics.truncated ∧
      hidden.journal.diagnostics.errorCount = shown.journal.diagnostics.errorCount ∧
      hidden.journal.diagnostics.entries =
        shown.journal.diagnostics.entries.filter fun d => d.severity ≠ .warning := by
  intro shown hidden
  rcases assemble_alike muting_recording source path output (cleared_muting s) with
    ⟨hanswer, limit, warnings, j, hhidden, -, hdiagnostics⟩ | ⟨-, -, ⟨⟩⟩
  have hend : hidden = shown.redirect limit warnings j := hhidden
  have hentries : hidden.journal.diagnostics = shown.journal.diagnostics.withoutWarnings := by
    rw [hend]
    exact hdiagnostics
  refine ⟨hanswer, ?_, ?_, ?_, ?_, ?_, ?_⟩
  · exact (congrArg Session.image hend).trans rfl
  · exact (congrArg Session.symbols hend).trans rfl
  · exact (congrArg Session.tree hend).trans rfl
  · exact (congrArg Diagnostics.truncated hentries).trans rfl
  · exact (congrArg Diagnostics.errorCount hentries).trans rfl
  · exact (congrArg Diagnostics.entries hentries).trans rfl

end Session

end AvmAssembler
