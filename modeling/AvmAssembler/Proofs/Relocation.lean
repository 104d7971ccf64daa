import AvmAssembler.Journal
import AvmAssembler.Proofs.Correspondence
import AvmAssembler.Proofs.Recording
import AvmAssembler.Proofs.Source.Relocation

/-! # Relocated reports

Where a fault is moved, what is recorded of it is moved. Whether it is recorded, and what it says, stays as it is.
-/

namespace AvmAssembler

open Correspondence

section

variable (f : Location → Location)

def Diagnostic.relocate (d : Diagnostic) : Diagnostic :=
  { d with location := d.location.map f }

def Diagnostics.relocate (ds : Diagnostics) : Diagnostics :=
  { ds with entries := ds.entries.map (Diagnostic.relocate f) }

def Event.relocate : Event → Event
  | .including path l => .including path (f l)
  | e => e

def Journal.relocate (j : Journal) : Journal :=
  ⟨j.diagnostics.relocate f, j.log.map (Event.relocate f)⟩

def Abort.relocate : Abort → Abort
  | .fatal fault => .fatal (fault.relocate f)
  | abort => abort

def Obstacle.relocate : Obstacle → Obstacle
  | .fault failure => .fault (failure.relocate f)
  | .search e => .search e

/-- Journals correspond to what they are moved to. -/
abbrev Journal.moving : Correspondence Abort Journal :=
  .ofMoves (Journal.relocate f) (Abort.relocate f)

abbrev Journal.alike : Correspondence Abort Journal :=
  .ofImages (Journal.relocate f) (Abort.relocate f)

end

variable {f : Location → Location}

namespace Diagnostics

theorem ofFault_relocate (fault : Fault) :
    ofFault (fault.relocate f) = (ofFault fault).map (Diagnostic.relocate f) := by
  have hhint : (fault.relocate f).shownHint = fault.shownHint := by
    simp only [Fault.shownHint, Fault.relocate, Cause.relocate_hint]
  rw [ofFault, ofFault, hhint, Fault.relocate, Cause.relocate_notes]
  simp only [Fault.message, Cause.relocate_message, List.map_append, List.map_cons, List.map_map]
  rfl

theorem push_relocate (ds : Diagnostics) (d : Diagnostic) :
    (ds.push d).relocate f = (ds.relocate f).push (d.relocate f) := by
  simp only [push, relocate, List.map_append]
  rfl

theorem warn_relocate (ds : Diagnostics) (d : Diagnostic) :
    (ds.warn d).relocate f = (ds.relocate f).warn (d.relocate f) := by
  unfold warn
  split
  · exact (push_relocate ds d).trans (if_pos ‹_›).symm
  · exact (if_neg ‹_›).symm

theorem record_relocate (d : Diagnostic) :
    (ofMoves (relocate f) id).Mirrors Eq (record d) (record (d.relocate f)) := by
  rintro ds _ rfl
  by_cases hwarning : d.severity = .warning
  · have hwarning' : (d.relocate f).severity = .warning := hwarning
    exact Leads.of_ok (record_of_warning hwarning)
      ⟨(), _, record_of_warning hwarning', rfl, (warn_relocate ds d).symm⟩
  · have hwarning' : (d.relocate f).severity ≠ .warning := hwarning
    by_cases hlimit : ds.limit ≤ ds.counted
    · have hlimit' : (ds.relocate f).limit ≤ (ds.relocate f).counted := hlimit
      exact Leads.of_error (record_of_le hwarning hlimit) ⟨_, _, record_of_le hwarning' hlimit', rfl, rfl⟩
    · have hlimit' : ¬(ds.relocate f).limit ≤ (ds.relocate f).counted := hlimit
      exact Leads.of_ok (record_of_not_le hwarning hlimit)
        ⟨(), _, record_of_not_le hwarning' hlimit', rfl, (push_relocate ds d).symm⟩

theorem recordAll_relocate (list : List Diagnostic) :
    (ofMoves (relocate f) id).Mirrors Eq (recordAll list) (recordAll (list.map (Diagnostic.relocate f))) := by
  induction list with
  | nil => exact .pure rfl
  | cons d rest ih => exact (record_relocate d).bind fun _ _ _ => ih

theorem add_relocate (fault : Fault) :
    (ofMoves (relocate f) id).Mirrors Eq (add fault) (add (fault.relocate f)) := by
  rw [add, add, ofFault_relocate]
  exact recordAll_relocate _

end Diagnostics

namespace Journal

theorem recording_relocate {r r' : Recorder Unit} (h : (ofMoves (Diagnostics.relocate f) id).Mirrors Eq r r') :
    (moving f).Mirrors Eq (recording r) (recording r') := by
  rw [recording_eq, recording_eq]
  refine Mirrors.part (fun j k hjk => ⟨h, congrArg Journal.diagnostics hjk, ?_⟩) ?_
  · rintro ds _ rfl
    exact congrArg (fun k => { k with diagnostics := ds.relocate f }) hjk
  · rintro e _ rfl
    rfl

theorem note_relocate (e : Event) : (moving f).Mirrors Eq (note e) (note (e.relocate f)) := by
  refine .modify ?_
  rintro j _ rfl
  simp [ofMoves, relocate]

theorem report_relocate (fault : Fault) : (moving f).Mirrors Eq (report fault) (report (fault.relocate f)) :=
  recording_relocate (Diagnostics.add_relocate fault)

/-- Steps without a value that are moved to the same one end alike. -/
theorem alike_of_moving {step step' common : Reporting Unit} (h : (moving f).Mirrors Eq step common)
    (h' : (moving f).Mirrors Eq step' common) : (alike f).Mirrors Eq step step' :=
  .of_common id id (h.mono fun _ _ h => h.symm) (h'.mono fun _ _ h => h.symm)

theorem note_alike {e e' : Event} (h : e.relocate f = e'.relocate f) : (alike f).Mirrors Eq (note e) (note e') :=
  alike_of_moving (note_relocate e) (h ▸ note_relocate e')

theorem report_alike {fault fault' : Fault} (h : fault.relocate f = fault'.relocate f) :
    (alike f).Mirrors Eq (report fault) (report fault') :=
  alike_of_moving (report_relocate fault) (h ▸ report_relocate fault')

theorem stop_alike {α β : Type} {value : α → β → Prop} {fault fault' : Fault}
    (h : fault.relocate f = fault'.relocate f) : (alike f).Mirrors value (stop fault) (stop fault') :=
  (report_alike h).bind fun _ _ _ => .throw rfl

theorem giveUp_alike {α β : Type} {value : α → β → Prop} {obstacle obstacle' : Obstacle}
    (h : obstacle.relocate f = obstacle'.relocate f) :
    (alike f).Mirrors value (giveUp obstacle) (giveUp obstacle') := by
  cases obstacle with
  | fault fault =>
    cases obstacle' with
    | fault fault' => exact stop_alike (Obstacle.fault.inj h)
    | search e' => cases h
  | search e =>
    cases obstacle' with
    | fault fault' => cases h
    | search e' =>
      cases h
      exact .throw rfl

end Journal

end AvmAssembler
