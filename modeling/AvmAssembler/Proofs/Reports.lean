import AvmAssembler.Journal
import AvmAssembler.Proofs.Outcome

/-! # Reports

Diagnostics are recorded in reports: a warning, the lack of an entry label, or a fault with its notes and its hint.
However a computation ends, whole reports are what it has recorded; only where the limit of diagnostics stops it, the
last report is cut off.
-/

namespace AvmAssembler

/-- What is recorded at one time. -/
inductive Report where
  | warning (message : String) (location : Option Location)
  | missingEntry (label : String)
  | fault (fault : Fault)

namespace Report

def head : Report → Diagnostic
  | warning message l => ⟨.warning, message, l⟩
  | missingEntry label => ⟨.error, s!"program entry point label '{label}' not found", none⟩
  | fault f => ⟨.error, f.message, f.location⟩

def notes : Report → List Diagnostic
  | fault f =>
    f.cause.notes.map (fun n => ⟨.note, n.2, n.1⟩) ++
      f.shownHint.toList.map fun h => ⟨.note, Text.Case.capitalize h, f.location⟩
  | _ => []

def diagnostics (r : Report) : List Diagnostic := r.head :: r.notes

def isError : Report → Bool
  | warning .. => false
  | missingEntry _ | fault _ => true

def IsWarning : Report → Prop
  | warning .. => True
  | _ => False

def IsFatal : Report → Prop
  | fault f => f.isFatal = true
  | _ => False

/-- The report satisfies the condition and is not fatal, so its phase goes on behind it. -/
structure Passes (P : Report → Prop) (r : Report) : Prop where
  holds : P r
  not_fatal : ¬r.IsFatal

theorem severity_of_mem_notes {r : Report} {d : Diagnostic} (h : d ∈ r.notes) : d.severity = .note := by
  cases r with
  | fault f =>
    rcases List.mem_append.1 h with h | h
    · obtain ⟨n, -, rfl⟩ := List.mem_map.1 h
      rfl
    · obtain ⟨n, -, rfl⟩ := List.mem_map.1 h
      rfl
  | warning message l | missingEntry label => cases h

theorem severity_head (r : Report) : r.head.severity = if r.isError then .error else .warning := by
  cases r <;> rfl

theorem isError_of_head {r : Report} (h : r.head.severity = .error) : r.isError = true := by
  cases hisError : r.isError with
  | true => rfl
  | false => simp [severity_head, hisError] at h

theorem isError_of_mem {r : Report} {d : Diagnostic} (hd : d ∈ r.diagnostics) (h : d.severity = .error) :
    r.isError = true := by
  rcases List.mem_cons.1 hd with rfl | hd
  · exact isError_of_head h
  · rw [severity_of_mem_notes hd] at h
    cases h

theorem countP_error (r : Report) :
    r.diagnostics.countP (fun d => d.severity = .error) = if r.isError then 1 else 0 := by
  have hnotes : r.notes.countP (fun d => d.severity = .error) = 0 := by
    refine List.countP_eq_zero.2 fun d hd => ?_
    simp [severity_of_mem_notes hd]
  rw [diagnostics, List.countP_cons, hnotes, severity_head]
  cases r.isError <;> rfl

end Report

namespace Diagnostics

/-! ## Whole reports -/

/-- The later collector has the reports behind what was there. -/
structure Grown (reports : List Report) (ds es : Diagnostics) : Prop where
  entries : es.entries = ds.entries ++ reports.flatMap Report.diagnostics
  errorCount : es.errorCount = ds.errorCount + reports.countP Report.isError
  truncated : es.truncated = ds.truncated

/-- The later collector has reports behind what was there, all of which satisfy the condition. -/
def GrownBy (P : Report → Prop) (ds es : Diagnostics) : Prop :=
  ∃ reports, Grown reports ds es ∧ ∀ r ∈ reports, P r

section

variable {P Q : Report → Prop} {reports others : List Report} {r : Report} {ds es fs : Diagnostics}

theorem Grown.nil (ds : Diagnostics) : Grown [] ds ds := ⟨by simp, rfl, rfl⟩

theorem Grown.append (h : Grown reports ds es) (h' : Grown others es fs) : Grown (reports ++ others) ds fs := by
  refine ⟨?_, ?_, h'.truncated.trans h.truncated⟩
  · rw [h'.entries, h.entries, List.flatMap_append, List.append_assoc]
  · rw [h'.errorCount, h.errorCount, List.countP_append, Nat.add_assoc]

theorem GrownBy.refl (ds : Diagnostics) : GrownBy P ds ds := ⟨[], .nil ds, by simp⟩

theorem GrownBy.trans (h : GrownBy P ds es) (h' : GrownBy P es fs) : GrownBy P ds fs := by
  obtain ⟨reports, hgrown, hall⟩ := h
  obtain ⟨others, hgrown', hall'⟩ := h'
  refine ⟨reports ++ others, hgrown.append hgrown', fun r hr => ?_⟩
  exact (List.mem_append.1 hr).elim (hall r) (hall' r)

theorem GrownBy.mono (h : GrownBy P ds es) (hPQ : ∀ r, P r → Q r) : GrownBy Q ds es := by
  obtain ⟨reports, hgrown, hall⟩ := h
  exact ⟨reports, hgrown, fun r hr => hPQ r (hall r hr)⟩

theorem GrownBy.single (h : Grown [r] ds es) (hr : P r) : GrownBy P ds es := ⟨[r], h, by simpa using hr⟩

theorem GrownBy.warn {message : String} {l : Option Location} (h : P (.warning message l)) :
    GrownBy P ds (ds.warn ⟨.warning, message, l⟩) := by
  unfold Diagnostics.warn
  split
  · exact .single ⟨rfl, rfl, rfl⟩ h
  · exact .refl ds

theorem GrownBy.errorCount_eq (h : GrownBy Report.IsWarning ds es) : es.errorCount = ds.errorCount := by
  obtain ⟨reports, hgrown, hall⟩ := h
  have hnone : reports.countP Report.isError = 0 := by
    refine List.countP_eq_zero.2 fun r hr => ?_
    have hwarning := hall r hr
    cases r <;> first | exact hwarning.elim | simp [Report.isError]
  rw [hgrown.errorCount, hnone, Nat.add_zero]

theorem Grown.errorCount_lt (h : Grown [r] ds es) (hr : r.isError = true) : ds.errorCount < es.errorCount := by
  have hcount := h.errorCount
  simp only [List.countP_singleton, hr, if_true] at hcount
  omega

theorem Grown.length_lt (h : Grown [r] ds es) : ds.entries.length < es.entries.length := by
  rw [h.entries]
  simp [Report.diagnostics]

/-- What starts without entries has errors among them if and only if some are counted. -/
theorem GrownBy.happened_iff (h : GrownBy P ds.reset es) :
    es.happened = true ↔ ∃ d ∈ es.entries, d.severity = .error := by
  obtain ⟨reports, hgrown, -⟩ := h
  have hcount : es.errorCount = reports.countP Report.isError := by
    rw [hgrown.errorCount]
    exact Nat.zero_add _
  have hentries : es.entries = reports.flatMap Report.diagnostics := hgrown.entries
  simp only [happened, hcount, hentries, decide_eq_true_eq, List.countP_pos_iff, List.mem_flatMap]
  constructor
  · rintro ⟨r, hr, herror⟩
    exact ⟨r.head, ⟨r, hr, List.mem_cons_self⟩, by rw [Report.severity_head, if_pos herror]⟩
  · rintro ⟨d, ⟨r, hr, hd⟩, herror⟩
    exact ⟨r, hr, Report.isError_of_mem hd herror⟩

theorem GrownBy.severity_ne (h : GrownBy P ds.reset es)
    (hclean : es.happened = false) : ∀ d ∈ es.entries, d.severity ≠ .error := by
  intro d hd herror
  rw [h.happened_iff.2 ⟨d, hd, herror⟩] at hclean
  cases hclean

theorem GrownBy.length_le (h : GrownBy P ds es) : ds.entries.length ≤ es.entries.length := by
  obtain ⟨reports, hgrown, -⟩ := h
  rw [hgrown.entries, List.length_append]
  omega

end

/-! ## Reports that are cut off -/

/-- Only the beginning of the report was recorded when the limit was reached. -/
structure Cut (r : Report) (ds es : Diagnostics) : Prop where
  truncated : es.truncated = true
  entries : ∃ part, part <+: r.diagnostics ∧ part ≠ r.diagnostics ∧ es.entries = ds.entries ++ part

/-- What was recorded when a computation stopped early. Where the reason is not recorded, it satisfies the second
condition. -/
def Aborted (P : Report → Prop) (N : Abort → Prop) (ds es : Diagnostics) : Abort → Prop
  | .recorded => ∃ f ms, f.isFatal = true ∧ P (.fault f) ∧ GrownBy P ds ms ∧ Grown [.fault f] ms es
  | .limit _ => ∃ r ms, P r ∧ GrownBy P ds ms ∧ Cut r ms es
  | .fatal f => N (.fatal f) ∧ f.isFatal = true ∧ P (.fault f) ∧ GrownBy P ds es
  | .numeral e => N (.numeral e) ∧ GrownBy P ds es
  | .search e => N (.search e) ∧ GrownBy P ds es

/-- What was recorded last when a computation stopped early. -/
def Last (P : Report → Prop) (N : Abort → Prop) (ds es : Diagnostics) : Abort → Prop
  | .recorded => ∃ f, f.isFatal = true ∧ P (.fault f) ∧ Grown [.fault f] ds es
  | .limit _ => ∃ r, P r ∧ Cut r ds es
  | .fatal f => N (.fatal f) ∧ f.isFatal = true ∧ P (.fault f) ∧ es = ds
  | .numeral e => N (.numeral e) ∧ es = ds
  | .search e => N (.search e) ∧ es = ds

/-- What was recorded when a computation stopped early, if nothing fatal was recorded before the last. -/
def Ended (P : Report → Prop) (N : Abort → Prop) (ds es : Diagnostics) (e : Abort) : Prop :=
  ∃ ms, GrownBy (Report.Passes P) ds ms ∧ Last P N ms es e

section

variable {P Q : Report → Prop} {N M : Abort → Prop} {ds es fs : Diagnostics} {e : Abort}

theorem Aborted.after (h : GrownBy P ds es) (h' : Aborted P N es fs e) : Aborted P N ds fs e := by
  cases e with
  | recorded =>
    obtain ⟨f, ms, hfatal, hf, hms, hgrown⟩ := h'
    exact ⟨f, ms, hfatal, hf, h.trans hms, hgrown⟩
  | limit e =>
    obtain ⟨r, ms, hr, hms, hcut⟩ := h'
    exact ⟨r, ms, hr, h.trans hms, hcut⟩
  | fatal f =>
    obtain ⟨hunrecorded, hfatal, hf, hgrown⟩ := h'
    exact ⟨hunrecorded, hfatal, hf, h.trans hgrown⟩
  | numeral e | search e =>
    obtain ⟨he, hgrown⟩ := h'
    exact ⟨he, h.trans hgrown⟩

theorem Aborted.mono (h : Aborted P N ds es e) (hPQ : ∀ r, P r → Q r) (hNM : ∀ e, N e → M e) :
    Aborted Q M ds es e := by
  cases e with
  | recorded =>
    obtain ⟨f, ms, hfatal, hf, hms, hgrown⟩ := h
    exact ⟨f, ms, hfatal, hPQ _ hf, hms.mono hPQ, hgrown⟩
  | limit e =>
    obtain ⟨r, ms, hr, hms, hcut⟩ := h
    exact ⟨r, ms, hPQ _ hr, hms.mono hPQ, hcut⟩
  | fatal f =>
    obtain ⟨hunrecorded, hfatal, hf, hgrown⟩ := h
    exact ⟨hNM _ hunrecorded, hfatal, hPQ _ hf, hgrown.mono hPQ⟩
  | numeral e | search e =>
    obtain ⟨he, hgrown⟩ := h
    exact ⟨hNM _ he, hgrown.mono hPQ⟩

theorem Aborted.grownBy_or_cut (h : Aborted P N ds es e) :
    GrownBy P ds es ∨ ∃ r ms, P r ∧ GrownBy P ds ms ∧ Cut r ms es := by
  cases e with
  | recorded =>
    obtain ⟨f, ms, -, hf, hms, hgrown⟩ := h
    exact .inl (hms.trans (.single hgrown hf))
  | limit e => exact .inr h
  | fatal f => exact .inl h.2.2.2
  | numeral e | search e => exact .inl h.2

theorem Last.mono (h : Last P N ds es e) (hPQ : ∀ r, P r → Q r) (hNM : ∀ e, N e → M e) : Last Q M ds es e := by
  cases e with
  | recorded =>
    obtain ⟨f, hfatal, hf, hgrown⟩ := h
    exact ⟨f, hfatal, hPQ _ hf, hgrown⟩
  | limit e =>
    obtain ⟨r, hr, hcut⟩ := h
    exact ⟨r, hPQ _ hr, hcut⟩
  | fatal f =>
    obtain ⟨hunrecorded, hfatal, hf, hsame⟩ := h
    exact ⟨hNM _ hunrecorded, hfatal, hPQ _ hf, hsame⟩
  | numeral e | search e =>
    obtain ⟨he, hsame⟩ := h
    exact ⟨hNM _ he, hsame⟩

theorem Last.aborted (h : Last P N ds es e) : Aborted P N ds es e := by
  cases e with
  | recorded =>
    obtain ⟨f, hfatal, hf, hgrown⟩ := h
    exact ⟨f, ds, hfatal, hf, .refl ds, hgrown⟩
  | limit e =>
    obtain ⟨r, hr, hcut⟩ := h
    exact ⟨r, ds, hr, .refl ds, hcut⟩
  | fatal f =>
    obtain ⟨hunrecorded, hfatal, hf, rfl⟩ := h
    exact ⟨hunrecorded, hfatal, hf, .refl _⟩
  | numeral e | search e =>
    obtain ⟨he, rfl⟩ := h
    exact ⟨he, .refl _⟩

theorem Last.ended (h : Last P N ds es e) : Ended P N ds es e := ⟨ds, .refl ds, h⟩

theorem Ended.after (h : GrownBy (Report.Passes P) ds es) (h' : Ended P N es fs e) : Ended P N ds fs e := by
  obtain ⟨ms, hms, hlast⟩ := h'
  exact ⟨ms, h.trans hms, hlast⟩

theorem Ended.mono (h : Ended P N ds es e) (hPQ : ∀ r, P r → Q r) (hNM : ∀ e, N e → M e) : Ended Q M ds es e := by
  obtain ⟨ms, hms, hlast⟩ := h
  exact ⟨ms, hms.mono fun r hr => ⟨hPQ r hr.holds, hr.not_fatal⟩, hlast.mono hPQ hNM⟩

theorem Ended.aborted (h : Ended P N ds es e) : Aborted P N ds es e := by
  obtain ⟨ms, hms, hlast⟩ := h
  exact hlast.aborted.after (hms.mono fun _ hr => hr.holds)

/-! ## Reading reports back -/

def isNote (d : Diagnostic) : Bool := d.severity = .note

/-- The errors and warnings of a list, each with the notes that follow it. -/
def explained : List Diagnostic → List (Diagnostic × List Diagnostic)
  | [] => []
  | d :: rest => if isNote d then explained rest else (d, rest.takeWhile isNote) :: explained rest

theorem explained_notes {notes rest : List Diagnostic} (h : ∀ d ∈ notes, isNote d = true) :
    explained (notes ++ rest) = explained rest := by
  induction notes with
  | nil => rfl
  | cons d notes ih =>
    rw [List.cons_append, explained, if_pos (h d (by simp))]
    exact ih fun d hd => h d (by simp [hd])

theorem isNote_head (r : Report) : isNote r.head = false := by
  cases r <;> rfl

theorem isNote_of_mem_notes {r : Report} {d : Diagnostic} (h : d ∈ r.notes) : isNote d = true := by
  simp [isNote, Report.severity_of_mem_notes h]

/-- Some notes of a report, all or a part of them, are read back behind its head. -/
theorem explained_head {r : Report} {notes rest : List Diagnostic} (h : notes <+: r.notes)
    (hrest : rest.takeWhile isNote = []) :
    explained (r.head :: (notes ++ rest)) = (r.head, notes) :: explained rest := by
  have hnotes : ∀ d ∈ notes, isNote d = true := fun d hd => isNote_of_mem_notes (h.mem hd)
  rw [explained, isNote_head, explained_notes hnotes, List.takeWhile_append_of_pos hnotes, hrest, List.append_nil]
  rfl

theorem explained_reports (reports : List Report) {rest : List Diagnostic} (hrest : rest.takeWhile isNote = []) :
    explained (reports.flatMap Report.diagnostics ++ rest) =
      reports.map (fun r => (r.head, r.notes)) ++ explained rest := by
  induction reports with
  | nil => rfl
  | cons r reports ih =>
    -- No head is a note, so the notes of this report end where the next report starts.
    have hnext : (reports.flatMap Report.diagnostics ++ rest).takeWhile isNote = [] := by
      cases reports with
      | nil => exact hrest
      | cons next reports => simp [Report.diagnostics, isNote_head]
    rw [List.flatMap_cons, List.append_assoc, Report.diagnostics, List.cons_append,
      explained_head (List.prefix_refl _) hnext, ih]
    rfl

theorem exists_mem_explained {d : Diagnostic} {list : List Diagnostic} (h : d ∈ list) (hnote : isNote d = false) :
    ∃ notes, (d, notes) ∈ explained list := by
  induction list with
  | nil => cases h
  | cons first rest ih =>
    rw [explained]
    rcases List.mem_cons.1 h with rfl | h
    · exact ⟨_, by rw [hnote]; exact List.mem_cons_self⟩
    · obtain ⟨notes, hnotes⟩ := ih h
      refine ⟨notes, ?_⟩
      split
      · exact hnotes
      · exact List.mem_cons_of_mem _ hnotes

/-- What is recorded in between is read back as reports that satisfy the condition; the notes of the last one may be cut
off at the limit. -/
def Explains (P : Report → Prop) (ds es : Diagnostics) : Prop :=
  ∃ recorded, es.entries = ds.entries ++ recorded ∧ ∀ d notes, (d, notes) ∈ explained recorded →
    ∃ r, P r ∧ d = r.head ∧
      (notes = r.notes ∨ es.truncated = true ∧ notes <+: r.notes ∧ notes ≠ r.notes ∧ d :: notes <:+ recorded)

theorem Explains.of_error {d : Diagnostic} (h : Explains P ds es) (hd : d ∈ es.entries) (hnew : ds.entries = [])
    (herror : d.severity = .error) : ∃ r, P r ∧ r.isError = true ∧ d = r.head := by
  obtain ⟨recorded, hentries, hall⟩ := h
  rw [hnew, List.nil_append] at hentries
  obtain ⟨notes, hnotes⟩ := exists_mem_explained (hentries ▸ hd) (by simp [isNote, herror])
  obtain ⟨r, hr, rfl, -⟩ := hall d notes hnotes
  exact ⟨r, hr, Report.isError_of_head herror, rfl⟩

theorem GrownBy.explains (h : GrownBy P ds es) : Explains P ds es := by
  obtain ⟨reports, hgrown, hall⟩ := h
  refine ⟨_, hgrown.entries, fun d notes hmem => ?_⟩
  have hexplained : explained (reports.flatMap Report.diagnostics ++ []) = _ := explained_reports reports rfl
  rw [List.append_nil] at hexplained
  rw [hexplained, explained, List.append_nil] at hmem
  obtain ⟨r, hr, heq⟩ := List.mem_map.1 hmem
  cases heq
  exact ⟨r, hall r hr, rfl, .inl rfl⟩

theorem Cut.explains {r : Report} {ms : Diagnostics} (hr : P r) (h : GrownBy P ds ms) (hcut : Cut r ms es) :
    Explains P ds es := by
  obtain ⟨reports, hgrown, hall⟩ := h
  obtain ⟨part, hpart, hne, hentries⟩ := hcut.entries
  have hrecorded : es.entries = ds.entries ++ (reports.flatMap Report.diagnostics ++ part) := by
    rw [hentries, hgrown.entries, List.append_assoc]
  refine ⟨_, hrecorded, fun d notes hmem => ?_⟩
  rcases List.prefix_cons_iff.1 hpart with rfl | ⟨shown, rfl, hshown⟩
  · rw [explained_reports reports rfl, explained, List.append_nil] at hmem
    obtain ⟨r', hr', heq⟩ := List.mem_map.1 hmem
    cases heq
    exact ⟨r', hall r' hr', rfl, .inl rfl⟩
  · have hhead : (r.head :: shown).takeWhile isNote = [] := by simp [isNote_head]
    have hlast : explained (r.head :: (shown ++ [])) = _ := explained_head hshown rfl
    rw [List.append_nil] at hlast
    rw [explained_reports reports hhead, hlast, explained, List.mem_append, List.mem_singleton] at hmem
    rcases hmem with hmem | heq
    · obtain ⟨r', hr', heq⟩ := List.mem_map.1 hmem
      cases heq
      exact ⟨r', hall r' hr', rfl, .inl rfl⟩
    · cases heq
      refine ⟨r, hr, rfl, .inr ⟨hcut.truncated, hshown, fun heq => hne ?_, List.suffix_append _ _⟩⟩
      rw [heq, Report.diagnostics]

theorem Aborted.explains (h : Aborted P N ds es e) : Explains P ds es := by
  rcases h.grownBy_or_cut with h | ⟨r, ms, hr, hms, hcut⟩
  · exact h.explains
  · exact Cut.explains hr hms hcut

end

/-! ## Recording -/

section

variable {d : Diagnostic} {ds : Diagnostics}

theorem record_of_warning (h : d.severity = .warning) : record d ds = .ok () (ds.warn d) := by
  simp only [record, if_pos h]

theorem record_of_le (h : d.severity ≠ .warning) (hlimit : ds.limit ≤ ds.counted) :
    record d ds = .error ⟨ds.limit⟩ { ds with truncated := true } := by
  simp only [record, if_neg h, if_pos hlimit]

theorem record_of_not_le (h : d.severity ≠ .warning) (hlimit : ¬ds.limit ≤ ds.counted) :
    record d ds = .ok () (ds.push d) := by
  simp only [record, if_neg h, if_neg hlimit]

end

/-- Diagnostics other than warnings are all recorded, or a part of them when the limit is reached. -/
theorem recordAll_entries (ds : Diagnostics) {list : List Diagnostic} (h : ∀ d ∈ list, d.severity ≠ .warning) :
    Leads (recordAll list) ds
      (fun _ es => es.entries = ds.entries ++ list ∧
        es.errorCount = ds.errorCount + list.countP (fun d => d.severity = .error) ∧ es.truncated = ds.truncated)
      (fun _ es => es.truncated = true ∧ ∃ part, part <+: list ∧ part ≠ list ∧ es.entries = ds.entries ++ part) := by
  induction list generalizing ds with
  | nil => exact Leads.of_pure ⟨by simp, rfl, rfl⟩
  | cons d list ih =>
    have hseverity : d.severity ≠ .warning := h d (by simp)
    by_cases hlimit : ds.limit ≤ ds.counted
    · exact Leads.of_error (bind_of_error (record_of_le hseverity hlimit))
        ⟨rfl, [], List.nil_prefix, by simp, by simp⟩
    · have hrest := ih (ds.push d) fun d' hd' => h d' (by simp [hd'])
      refine Leads.of_ok_bind (record_of_not_le hseverity hlimit) (hrest.mono ?_ ?_)
      · rintro - es ⟨hentries, hcount, htruncated⟩
        refine ⟨by rw [hentries]; simp [push], ?_, htruncated⟩
        rw [hcount, List.countP_cons]
        by_cases herror : d.severity = .error
        · simp only [push, herror, if_true, decide_true]
          omega
        · simp [push, herror]
      · rintro - es ⟨htruncated, part, hprefix, hne, hentries⟩
        refine ⟨htruncated, d :: part, List.cons_prefix_cons.2 ⟨rfl, hprefix⟩, by simpa using hne, ?_⟩
        rw [hentries]
        simp [push]

theorem recordAll_report {r : Report} (h : r.isError = true) (ds : Diagnostics) :
    Leads (recordAll r.diagnostics) ds (fun _ es => Grown [r] ds es) (fun _ es => Cut r ds es) := by
  have hwarning : ∀ d ∈ r.diagnostics, d.severity ≠ .warning := by
    intro d hd
    rcases List.mem_cons.1 hd with rfl | hd
    · simp [Report.severity_head, h]
    · simp [Report.severity_of_mem_notes hd]
  refine (recordAll_entries ds hwarning).mono ?_ fun _ es hes => ⟨hes.1, hes.2⟩
  rintro - es ⟨hentries, hcount, htruncated⟩
  refine ⟨by simpa using hentries, ?_, htruncated⟩
  rw [hcount, Report.countP_error, List.countP_cons, h]
  rfl

/-- The lack of the entry label is recorded by itself. -/
theorem record_missingEntry (label : String) (ds : Diagnostics) :
    Leads (record (Report.missingEntry label).head) ds (fun _ es => Grown [.missingEntry label] ds es)
      (fun _ es => Cut (.missingEntry label) ds es) := by
  have h := recordAll_report (r := .missingEntry label) rfl ds
  have hsingle : recordAll (Report.missingEntry label).diagnostics = record (Report.missingEntry label).head :=
    bind_pure_unit
  rwa [hsingle] at h

end Diagnostics

/-! ## Computations that report -/

open Diagnostics

/-- However the computation ends, what it has recorded are reports that satisfy the condition, whole unless the limit
was reached. -/
def Records {σ α : Type} (diagnostics : σ → Diagnostics) (P : Report → Prop) (N : Abort → Prop)
    (step : EStateM Abort σ α) (s : σ) : Prop :=
  Leads step s (fun _ t => GrownBy P (diagnostics s) (diagnostics t))
    (fun e t => Aborted P N (diagnostics s) (diagnostics t) e)

/-- However the computation ends, nothing fatal is recorded but the last report, where it stops. -/
def Escalates {σ α : Type} (diagnostics : σ → Diagnostics) (P : Report → Prop) (N : Abort → Prop)
    (step : EStateM Abort σ α) (s : σ) : Prop :=
  Leads step s (fun _ t => GrownBy (Report.Passes P) (diagnostics s) (diagnostics t))
    (fun e t => Ended P N (diagnostics s) (diagnostics t) e)

namespace Escalates

variable {σ α β : Type} {diagnostics : σ → Diagnostics} {P : Report → Prop} {N : Abort → Prop}
  {step : EStateM Abort σ α} {next : α → EStateM Abort σ β} {s : σ}

theorem records (h : Escalates diagnostics P N step s) : Records diagnostics P N step s :=
  Leads.mono h (fun _ _ hgrown => hgrown.mono fun _ hr => hr.holds) fun _ _ hended => hended.aborted

theorem mono {Q : Report → Prop} {M : Abort → Prop} (h : Escalates diagnostics P N step s) (hPQ : ∀ r, P r → Q r)
    (hNM : ∀ e, N e → M e) : Escalates diagnostics Q M step s :=
  Leads.mono h (fun _ _ hgrown => hgrown.mono fun r hr => ⟨hPQ r hr.holds, hr.not_fatal⟩)
    fun _ _ hended => hended.mono hPQ hNM

theorem pure (x : α) : Escalates diagnostics P N (pure x : EStateM Abort σ α) s := Leads.of_pure (.refl _)

theorem behind {ds : Diagnostics} (h : Escalates diagnostics P N step s)
    (hgrown : GrownBy (Report.Passes P) ds (diagnostics s)) :
    Leads step s (fun _ t => GrownBy (Report.Passes P) ds (diagnostics t))
      (fun e t => Ended P N ds (diagnostics t) e) :=
  Leads.mono h (fun _ _ h => hgrown.trans h) fun _ _ h => h.after hgrown

theorem bind (h : Escalates diagnostics P N step s) (hnext : ∀ x t, Escalates diagnostics P N (next x) t) :
    Escalates diagnostics P N (step >>= next) s :=
  Leads.of_bind h (fun x t ht => (hnext x t).behind ht) fun _ _ h => h

end Escalates

namespace Journal

variable {P : Report → Prop} {N : Abort → Prop}

/-- Where recording a report is refused, the run is aborted by it. -/
theorem recording_leads {r : Report} {step : Recorder Unit} (j : Journal) (hr : P r)
    (h : Leads step j.diagnostics (fun _ es => Grown [r] j.diagnostics es) (fun _ es => Cut r j.diagnostics es)) :
    Leads (recording step) j (fun _ k => Grown [r] j.diagnostics k.diagnostics)
      (fun e k => Last P N j.diagnostics k.diagnostics e) := by
  cases hresult : step j.diagnostics with
  | ok x es =>
    refine Leads.of_ok (x := ()) (t := { j with diagnostics := es }) ?_ (h.at_ok hresult)
    simp only [recording, hresult]
  | error e es =>
    have hlast : Last P N j.diagnostics es (.limit e) := ⟨r, hr, h.at_error hresult⟩
    refine Leads.of_error (e := .limit e) (t := { j with diagnostics := es }) ?_ hlast
    simp only [recording, hresult]

theorem report_leads {fault : Fault} (h : P (.fault fault)) (j : Journal) :
    Leads (report fault) j (fun _ k => Grown [.fault fault] j.diagnostics k.diagnostics)
      (fun e k => Last P N j.diagnostics k.diagnostics e) :=
  recording_leads j h (recordAll_report (r := .fault fault) rfl j.diagnostics)

theorem report_escalates {fault : Fault} (hfatal : fault.isFatal = false) (h : P (.fault fault)) (j : Journal) :
    Escalates Journal.diagnostics P N (report fault) j := by
  have hpasses : Report.Passes P (.fault fault) := ⟨h, by simp [Report.IsFatal, hfatal]⟩
  exact (report_leads h j).mono (fun _ _ hgrown => .single hgrown hpasses) fun _ _ h => h.ended

theorem stop_leads {α : Type} {fault : Fault} (hfatal : fault.isFatal = true) (h : P (.fault fault)) (j : Journal) :
    Leads (stop fault : Reporting α) j (fun _ _ => False) (fun e k => Last P N j.diagnostics k.diagnostics e) := by
  refine Leads.of_bind (report_leads h j) ?_ fun _ _ h => h
  intro _ k hgrown
  exact Leads.of_throw ⟨fault, hfatal, h, hgrown⟩

theorem stop_escalates {α : Type} {fault : Fault} (hfatal : fault.isFatal = true) (h : P (.fault fault))
    (j : Journal) : Escalates Journal.diagnostics P N (stop fault : Reporting α) j :=
  (stop_leads hfatal h j).mono (fun _ _ h => h.elim) fun _ _ h => h.ended

/-- Reading is given up with the fault as the last report, or with nothing recorded. -/
theorem giveUp_escalates {α : Type} {obstacle : Obstacle}
    (hfault : ∀ fault, obstacle = .fault fault → fault.isFatal = true ∧ P (.fault fault))
    (hsearch : ∀ e, obstacle = .search e → N (.search e)) (j : Journal) :
    Escalates Journal.diagnostics P N (giveUp obstacle : Reporting α) j := by
  cases obstacle with
  | fault fault => exact stop_escalates (hfault fault rfl).1 (hfault fault rfl).2 j
  | search e => exact Leads.of_throw ⟨_, .refl _, hsearch e rfl, rfl⟩

theorem note_escalates (e : Event) (j : Journal) : Escalates Journal.diagnostics P N (note e) j :=
  Leads.of_modify (.refl _)

end Journal

end AvmAssembler
