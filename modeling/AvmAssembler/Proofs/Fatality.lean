import AvmAssembler.Proofs.Assembly.Faults
import AvmAssembler.Proofs.Reports

/-! # Fatal faults

A fatal fault is recorded as the last one. It is told from the others by its wording alone, so where the diagnostics of
a run show one, nothing but its own notes stands behind it, and no other one before it.
-/

namespace AvmAssembler

open Diagnostics

/-- The cause is fatal by itself. -/
def Cause.IsFatal : Cause → Prop
  | lexical _ | inclusion .. | embedding .. | output .. => True
  | _ => False

def Cause.IsOwn : Cause → Prop
  | stated .. => False
  | _ => True

theorem Cause.isFatal_iff {cause : Cause} (h : cause.IsOwn) : cause.category.isFatal = true ↔ cause.IsFatal := by
  cases cause <;> simp_all [IsOwn, IsFatal, category, FaultCategory.isFatal]

/-! ## Wordings of fatal causes -/

/-- Words that start the wordings of fatal causes, and no other ones. -/
def fatalOpenings : List String :=
  ["unexpected c", "expected l", "expected b", "expected oc", "expected d", "expected h", "expected fl", "unterminated",
    "unknown e", "empty", "character", "cannot i", "cannot em", "cannot w"]

/-- The text starts as the wording of a fatal cause does. Besides the words above, this may be a character that is
expected twice. -/
def opensFatal (cs : List Char) : Bool :=
  fatalOpenings.any (fun w => w.toList.isPrefixOf cs) ||
    "expected '".toList.isPrefixOf cs && (cs[10]? == cs[11]?)

theorem toList_toString_char (c : Char) : (toString c).toList = [c] := String.toList_singleton c

theorem Cause.IsFatal.opensFatal {cause : Cause} (h : cause.IsFatal) : opensFatal cause.message.toList = true := by
  cases cause with
  | lexical f =>
    cases f with
    | missingDigits radix =>
      cases radix <;> decide +kernel
    | _ =>
      unfold message LexicalFault.message
      simp [AvmAssembler.opensFatal, fatalOpenings, List.isPrefixOf, toString_text, toList_toString_char]
  | inclusion | embedding | output =>
    unfold message
    simp [AvmAssembler.opensFatal, fatalOpenings, List.isPrefixOf, toString_text]
  | _ => exact h.elim

theorem Cause.not_opensFatal {cause : Cause} (h : ¬cause.IsFatal) (hown : cause.IsOwn)
    (hstatement : ∀ kind, cause ≠ .notAStatement kind) : AvmAssembler.opensFatal cause.message.toList = false := by
  cases cause with
  | lexical | inclusion | embedding | output => exact absurd trivial h
  | stated => exact hown.elim
  | notAStatement kind => exact absurd rfl (hstatement kind)
  | unexpected expected found =>
    cases expected
    all_goals
      unfold message
      simp [AvmAssembler.opensFatal, fatalOpenings, List.isPrefixOf, toString_text, Expected.words]
  | trailing found =>
    cases found
    all_goals
      unfold message
      simp [AvmAssembler.opensFatal, fatalOpenings, List.isPrefixOf, toString_text, Found.words]
  | _ =>
    unfold message
    simp [AvmAssembler.opensFatal, fatalOpenings, List.isPrefixOf, toString_text]

/-- The one other wording that may start with the words of a fatal cause ends in another letter. -/
theorem Cause.IsFatal.getLast? {cause : Cause} (h : cause.IsFatal) (hhead : cause.message.toList.head? = some 'u') :
    cause.message.toList.getLast? ≠ some 't' := by
  cases cause with
  | lexical f =>
    cases f with
    | numberCharacter c radix =>
      unfold message LexicalFault.message
      cases radix <;> simp [toString_text, toList_toString_char, Radix.name]
    | _ =>
      revert hhead
      unfold message LexicalFault.message
      simp [toString_text, toList_toString_char]
  | inclusion | embedding | output =>
    unfold message at hhead
    simp [toString_text] at hhead
  | _ => exact h.elim

/-- A fatal cause is worded unlike any that is not fatal. -/
theorem Cause.IsFatal.message_ne {cause other : Cause} (h : cause.IsFatal) (hother : ¬other.IsFatal)
    (hown : other.IsOwn) : cause.message ≠ other.message := by
  intro heq
  by_cases hstatement : ∃ kind, other = .notAStatement kind
  · obtain ⟨kind, rfl⟩ := hstatement
    have hhead : (notAStatement kind).message.toList.head? = some 'u' := by
      unfold message
      simp [toString_text]
    have hlast : (notAStatement kind).message.toList.getLast? = some 't' := by
      unfold message
      rw [String.toList_append, List.getLast?_append]
      rfl
    exact h.getLast? (heq ▸ hhead) (heq ▸ hlast)
  · have hopens := h.opensFatal
    rw [heq, not_opensFatal hother hown fun kind hkind => hstatement ⟨kind, hkind⟩] at hopens
    cases hopens

/-- The diagnostic reads as that of a fatal fault. -/
def Diagnostic.ReadsFatal (d : Diagnostic) : Prop :=
  d.severity = .error ∧ ∃ cause : Cause, cause.IsFatal ∧ d.message = cause.message

def Report.IsOwn : Report → Prop
  | .fault f => f.cause.IsOwn
  | _ => True

/-- A report that starts with what reads as a fatal fault is of one. -/
theorem Report.isFatal_of_readsFatal {r : Report} (hown : r.IsOwn) (h : r.head.ReadsFatal) :
    ∃ fault, r = .fault fault ∧ fault.cause.IsFatal := by
  obtain ⟨hseverity, cause, hfatal, hmessage⟩ := h
  cases r with
  | warning message l => cases hseverity
  | missingEntry label =>
    have hopens := hfatal.opensFatal
    rw [← hmessage] at hopens
    simp [head, opensFatal, fatalOpenings, List.isPrefixOf, toString_text] at hopens
  | fault f =>
    refine ⟨f, rfl, ?_⟩
    by_contra hother
    exact hfatal.message_ne hother hown hmessage.symm

theorem Report.Passes.not_readsFatal {r : Report} (h : r.Passes IsOwn) {d : Diagnostic} (hd : d ∈ r.diagnostics) :
    ¬d.ReadsFatal := by
  intro hreads
  rcases List.mem_cons.1 hd with rfl | hd
  · obtain ⟨fault, rfl, hfatal⟩ := isFatal_of_readsFatal h.holds hreads
    exact h.not_fatal ((Cause.isFatal_iff h.holds).2 hfatal)
  · have hnote := severity_of_mem_notes hd
    rw [hreads.1] at hnote
    cases hnote

namespace Diagnostics

/-! ## The last report -/

/-- Nothing fatal was recorded in between but the last report, of which the limit may have cut off the end. -/
def Culminates (P : Report → Prop) (ds es : Diagnostics) : Prop :=
  ∃ ms, GrownBy (Report.Passes P) ds ms ∧ (es = ms ∨ ∃ r, P r ∧ (Grown [r] ms es ∨ Cut r ms es))

variable {P : Report → Prop} {ds es fs : Diagnostics}

theorem GrownBy.culminates (h : GrownBy (Report.Passes P) ds es) : Culminates P ds es := ⟨es, h, .inl rfl⟩

theorem Culminates.after (h : GrownBy (Report.Passes P) ds es) (h' : Culminates P es fs) : Culminates P ds fs := by
  obtain ⟨ms, hms, hlast⟩ := h'
  exact ⟨ms, h.trans hms, hlast⟩

/-- What was recorded last: all of a report, or its beginning if the rest was cut off. -/
theorem Culminates.entries (h : Culminates P ds es) :
    ∃ (reports : List Report) (part : List Diagnostic),
      es.entries = ds.entries ++ reports.flatMap Report.diagnostics ++ part ∧ (∀ r ∈ reports, r.Passes P) ∧
      (part = [] ∨ ∃ r, P r ∧ part <+: r.diagnostics ∧ (es.truncated = false → part = r.diagnostics)) := by
  obtain ⟨ms, ⟨reports, hgrown, hall⟩, hlast⟩ := h
  rcases hlast with rfl | ⟨r, hr, hlast | hcut⟩
  · exact ⟨reports, [], by rw [hgrown.entries, List.append_nil], hall, .inl rfl⟩
  · refine ⟨reports, r.diagnostics, ?_, hall, .inr ⟨r, hr, List.prefix_refl _, fun _ => rfl⟩⟩
    rw [hlast.entries, hgrown.entries, List.flatMap_singleton]
  · obtain ⟨part, hpart, -, hentries⟩ := hcut.entries
    refine ⟨reports, part, by rw [hentries, hgrown.entries], hall, .inr ⟨r, hr, hpart, fun hwhole => ?_⟩⟩
    rw [hcut.truncated] at hwhole
    cases hwhole

/-- Where a diagnostic reads as a fatal fault, it is that of one, none before it does, and behind it stand notes of this
fault, all of them unless the limit was exceeded. -/
theorem Culminates.of_readsFatal (h : Culminates Report.IsOwn ds es) (hds : ds.entries = [])
    {before after : List Diagnostic} {d : Diagnostic} (hentries : es.entries = before ++ d :: after)
    (hd : d.ReadsFatal) :
    (∀ other ∈ before, ¬other.ReadsFatal) ∧ ∃ fault : Fault, fault.cause.IsFatal ∧ d = (Report.fault fault).head ∧
      after <+: (Report.fault fault).notes ∧ (es.truncated = false → after = (Report.fault fault).notes) := by
  obtain ⟨reports, part, hparts, hall, hlast⟩ := h.entries
  have hpassed : ∀ other ∈ reports.flatMap Report.diagnostics, ¬other.ReadsFatal := by
    intro other hother
    obtain ⟨r, hr, hmem⟩ := List.mem_flatMap.1 hother
    exact (hall r hr).not_readsFatal hmem
  rw [hds, List.nil_append, hentries] at hparts
  -- The diagnostic is none of those passed over, and no note, so it is the head of the last report.
  have hsplit : before = reports.flatMap Report.diagnostics ∧ part = d :: after := by
    rcases List.append_eq_append_iff.1 hparts with ⟨more, hreports, hmore⟩ | ⟨more, hbefore, hmore⟩
    · cases more with
      | nil => exact ⟨by simpa using hreports.symm, hmore.symm⟩
      | cons first more =>
        obtain ⟨rfl, -⟩ := List.cons.inj hmore
        exact absurd hd (hpassed _ (by simp [hreports]))
    · cases more with
      | nil => exact ⟨by simpa using hbefore, hmore⟩
      | cons first more =>
        rcases hlast with rfl | ⟨r, -, hpart, -⟩
        · cases hmore
        · rw [hmore, Report.diagnostics, List.cons_append] at hpart
          have hnote := Report.severity_of_mem_notes ((List.cons_prefix_cons.1 hpart).2.mem (by simp : d ∈ more ++ d :: after))
          rw [hd.1] at hnote
          cases hnote
  obtain ⟨rfl, rfl⟩ := hsplit
  refine ⟨hpassed, ?_⟩
  rcases hlast with hnil | ⟨r, hr, hpart, hwhole⟩
  · cases hnil
  · obtain ⟨rfl, hafter⟩ := List.cons_prefix_cons.1 hpart
    obtain ⟨fault, rfl, hfatal⟩ := Report.isFatal_of_readsFatal hr hd
    exact ⟨fault, hfatal, rfl, hafter, fun htruncated => (List.cons.inj (hwhole htruncated)).2⟩

end Diagnostics

end AvmAssembler
