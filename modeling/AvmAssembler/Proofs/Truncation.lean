import AvmAssembler.Proofs.Runs
import AvmAssembler.Proofs.Source.Completeness

/-! # The limit only truncates

Runs of the same source under a smaller and a greater limit take the same course until a diagnostic is refused under the
smaller. What has been recorded by then is the beginning of what is recorded under the greater limit, and if nothing is
refused, the runs differ in the limit alone.
-/

namespace AvmAssembler

open Diagnostics

namespace Diagnostics

/-- Collectors under two limits: they hold the same until the first refuses a diagnostic, and then the second goes on
from there. -/
def truncation (m m' : Int) : Comparison LimitExceeded Diagnostics where
  same ds es := ds.limit = m ∧ ds.truncated = false ∧ es = { ds with limit := m' }
  cut _ ds es := ds.truncated = true ∧ ds.entries <+: es.entries
  later ds es := ds.entries <+: es.entries
  later_refl _ := List.prefix_rfl
  later_trans := List.IsPrefix.trans
  cut_later := fun ⟨htruncated, hbegin⟩ hlater => ⟨htruncated, hbegin.trans hlater⟩

variable {m m' : Int}

theorem prefix_warn (ds : Diagnostics) (d : Diagnostic) : ds.entries <+: (ds.warn d).entries := by
  unfold warn
  split
  · exact List.prefix_append _ _
  · exact List.prefix_rfl

/-- Whether it is refused or not, a diagnostic changes nothing that was recorded before. -/
theorem record_leaves (d : Diagnostic) (ds : Diagnostics) :
    Leaves (record d) ds fun es => ds.entries <+: es.entries := by
  by_cases hwarning : d.severity = .warning
  · exact Leads.of_ok (record_of_warning hwarning) (prefix_warn ds d)
  by_cases hrefused : ds.limit ≤ ds.counted
  · exact Leads.of_error (record_of_le hwarning hrefused) List.prefix_rfl
  · exact Leads.of_ok (record_of_not_le hwarning hrefused) (List.prefix_append _ _)

theorem warn_truncation {ds es : Diagnostics} (d : Diagnostic) (h : (truncation m m').same ds es) :
    (truncation m m').same (ds.warn d) (es.warn d) := by
  obtain ⟨hlimit, htruncated, rfl⟩ := h
  unfold warn
  dsimp only
  split
  · exact ⟨hlimit, htruncated, rfl⟩
  · exact ⟨hlimit, htruncated, rfl⟩

theorem record_truncation (h : m ≤ m') (d : Diagnostic) : (truncation m m').Respects (record d) where
  agree {ds _} hsame := by
    obtain ⟨hlimit, htruncated, rfl⟩ := hsame
    by_cases hwarning : d.severity = .warning
    · refine Leads.of_ok (record_of_warning hwarning) ⟨_, record_of_warning hwarning, ?_⟩
      exact warn_truncation d ⟨hlimit, htruncated, rfl⟩
    by_cases hrefused : ds.limit ≤ ds.counted
    -- What becomes of the diagnostic under the greater limit does not matter.
    · have hlater := record_leaves d { ds with limit := m' }
      exact Leads.of_error (record_of_le hwarning hrefused) (.inr (hlater.mono fun _ hbegin => ⟨rfl, hbegin⟩))
    · have hallowed : ¬m' ≤ ds.counted := by omega
      exact Leads.of_ok (record_of_not_le hwarning hrefused)
        ⟨_, record_of_not_le hwarning hallowed, hlimit, htruncated, rfl⟩
  later ds := record_leaves d ds

theorem recordAll_truncation (h : m ≤ m') (list : List Diagnostic) : (truncation m m').Respects (recordAll list) := by
  induction list with
  | nil => exact .pure ()
  | cons d rest ih => exact (record_truncation h d).bind fun _ => ih

theorem truncation_recording (h : m ≤ m') : (truncation m m').Recording where
  happened {ds _} hsame := by
    obtain ⟨-, -, rfl⟩ := hsame
    rfl
  warn _ _ hsame := warn_truncation _ hsame
  warn_later ds _ _ := prefix_warn ds _
  report _ := recordAll_truncation h _

end Diagnostics

namespace Session

open Assembly (endState)

def withLimit (s : Session) (limit : Int) : Session :=
  { s with
    settings := { s.settings with maxErrors := limit }
    journal := { s.journal with diagnostics := { s.journal.diagnostics with limit := limit } } }

theorem start_withLimit (settings : Settings) (tree : FileTree) (limit : Int) :
    (start settings tree).withLimit limit = start { settings with maxErrors := limit } tree := rfl

theorem cleared_alike (s : Session) (m m' : Int) :
    Alike (truncation m m') (s.withLimit m).cleared (s.withLimit m').cleared :=
  ⟨m', s.settings.showWarnings, ⟨{ s.journal.diagnostics.reset with limit := m' }, s.journal.log⟩, rfl, rfl, rfl, rfl⟩

/-- Whatever is assembled, under a smaller limit the diagnostics are the beginning of those under a greater one. If the
smaller limit is not exceeded, nor is the greater, and both runs give the same answer, or let the same escape, and leave
the same image, the same symbols, the same files and the same diagnostics. -/
theorem assemble_withLimit (s : Session) {m m' : Int} (h : m ≤ m') (source path : String) (output : Option Path) :
    let few := endState (assemble source path output) (s.withLimit m)
    let many := endState (assemble source path output) (s.withLimit m')
    few.journal.diagnostics.entries <+: many.journal.diagnostics.entries ∧
      (few.journal.diagnostics.truncated = false →
        answer (assemble source path output) (s.withLimit m') = answer (assemble source path output) (s.withLimit m) ∧
          many.image = few.image ∧ many.symbols = few.symbols ∧ many.tree = few.tree ∧
          many.journal.diagnostics = { few.journal.diagnostics with limit := m' } ∧
          many.journal.diagnostics.truncated = false) := by
  intro few many
  rcases assemble_alike (truncation_recording h) source path output (cleared_alike s m m') with
    ⟨hanswer, limit, warnings, j, hmany, -, htruncated, hsame⟩ | ⟨-, refusal, htruncated, hbegin⟩
  · have hdiagnostics : many.journal.diagnostics = { few.journal.diagnostics with limit := m' } := by
      simp only [many, hmany, redirect, hsame, few]
    refine ⟨?_, fun _ => ⟨hanswer, ?_, ?_, ?_, hdiagnostics, ?_⟩⟩
    · exact hdiagnostics ▸ List.prefix_rfl
    · exact (congrArg Session.image hmany).trans rfl
    · exact (congrArg Session.symbols hmany).trans rfl
    · exact (congrArg Session.tree hmany).trans rfl
    · rw [hdiagnostics]
      exact htruncated
  · exact ⟨hbegin, fun hfew => by simp [few, htruncated] at hfew⟩

/-- The only error of an empty source is that there is no entry label. -/
theorem assemble_withLimit_empty :
    let run := assemble "" FileTree.inputName none
    (1 : Int) ≤ 8 ∧ answer run (start { maxErrors := 8 } {}) = .ok false ∧
      (endState run (start { maxErrors := 8 } {})).journal.diagnostics.entries.length = 1 := by
  intro run
  have hspells : Spells "".toList [] := .nil
  have hyields : Statement.YieldAll [] [] := rfl
  obtain ⟨ss, hss, hread⟩ := Program.read_of_yieldAll (Unit.canStart_input ⟨{}, []⟩) hspells hyields
  obtain rfl := List.map_eq_nil_iff.1 hss
  have hone := assemble_of_read (s := start { maxErrors := 1 } {}) (hread _) none
  have hanswer : answer run (start { maxErrors := 1 } {}) = .ok false := by
    simp only [run, answer, hone]
    rfl
  have htruncated : (endState run (start { maxErrors := 1 } {})).journal.diagnostics.truncated = false := by
    simp only [run, endState, hone]
    rfl
  have hlength : (endState run (start { maxErrors := 1 } {})).journal.diagnostics.entries.length = 1 := by
    simp only [run, endState, hone]
    rfl
  have hlimit : (1 : Int) ≤ 8 := by decide
  obtain ⟨-, hsame⟩ := assemble_withLimit (start {} {}) hlimit "" FileTree.inputName none
  rw [start_withLimit, start_withLimit] at hsame
  obtain ⟨hanswers, -, -, -, hdiagnostics, -⟩ := hsame htruncated
  refine ⟨hlimit, hanswers.trans hanswer, ?_⟩
  rw [hdiagnostics]
  exact hlength

end Session

end AvmAssembler
