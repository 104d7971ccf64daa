import AvmAssembler.Proofs.Escapes
import AvmAssembler.Proofs.Image.Codec
import AvmAssembler.Proofs.Runs
import AvmAssembler.Proofs.Source.RoundTrip

/-! # The verdict of a run

A run that answers has succeeded just if no error is among its diagnostics, and just if it leaves an image. With success
the image is in the output file and no other file has changed; without, no file has changed at all. Recording keeps the
books: once something is counted or refused, an error is among the entries.
-/

namespace AvmAssembler

open Diagnostics

/-! ## The books of the collector -/

namespace Diagnostics

/-- There is room for an error, errors are counted, and no note stands and nothing is refused before the first error. -/
structure Tallied (ds : Diagnostics) : Prop where
  limit : 1 ≤ ds.limit
  errors : ds.errorCount = ds.entries.countP fun d => d.severity = .error
  counted : 0 < ds.counted → ds.happened = true
  truncated : ds.truncated = true → ds.happened = true

variable {ds : Diagnostics}

theorem Tallied.reset (h : 1 ≤ ds.limit) : Tallied ds.reset :=
  ⟨h, rfl, fun hcounted => absurd hcounted (Nat.lt_irrefl 0), by simp [Diagnostics.reset]⟩

theorem Tallied.happened_iff (h : Tallied ds) : ds.happened = true ↔ ∃ d ∈ ds.entries, d.severity = .error := by
  simp [happened, h.errors, List.countP_pos_iff]

theorem push_errors (h : ds.errorCount = ds.entries.countP fun d => d.severity = .error) (d : Diagnostic) :
    (ds.push d).errorCount = (ds.push d).entries.countP fun d => d.severity = .error := by
  simp only [push, List.countP_append, List.countP_singleton, ← h]
  by_cases herror : d.severity = .error <;> simp [herror]

theorem push_happened {d : Diagnostic} (h : d.severity = .error ∨ ds.happened = true) :
    (ds.push d).happened = true := by
  by_cases herror : d.severity = .error
  · simp [happened, push, herror]
  · simpa [happened, push, herror] using h.resolve_left herror

/-- Behind an error, or as one, anything may be recorded. -/
theorem Tallied.push {d : Diagnostic} (h : Tallied ds) (hd : d.severity = .error ∨ ds.happened = true) :
    Tallied (ds.push d) :=
  ⟨h.limit, push_errors h.errors d, fun _ => push_happened hd, fun _ => push_happened hd⟩

theorem Tallied.warn {d : Diagnostic} (h : Tallied ds) (hd : d.severity = .warning) :
    Tallied (ds.warn d) ∧ (ds.warn d).happened = ds.happened := by
  unfold Diagnostics.warn
  split
  · have hcounted : (ds.push d).counted = ds.counted := by simp [Diagnostics.push, hd]
    have hhappened : (ds.push d).happened = ds.happened := by simp [Diagnostics.push, happened, hd]
    exact ⟨⟨h.limit, push_errors h.errors d, by rw [hcounted, hhappened]; exact h.counted,
      by rw [hhappened]; exact h.truncated⟩, hhappened⟩
  · exact ⟨h, rfl⟩

theorem Tallied.record {d : Diagnostic} (h : Tallied ds) (hd : d.severity = .error ∨ ds.happened = true) :
    Leaves (record d) ds fun es => Tallied es ∧ es.happened = true := by
  by_cases hwarning : d.severity = .warning
  · obtain ⟨htallied, hhappened⟩ := h.warn hwarning
    have hbefore : ds.happened = true := hd.resolve_left (by simp [hwarning])
    exact Leads.of_ok (record_of_warning hwarning) ⟨htallied, hhappened.trans hbefore⟩
  by_cases hrefused : ds.limit ≤ ds.counted
  -- Something is counted where there was room for an error, so an error has been recorded.
  · have hhappened : ds.happened = true := h.counted (by have := h.limit; omega)
    exact Leads.of_error (record_of_le hwarning hrefused)
      ⟨⟨h.limit, h.errors, h.counted, fun _ => hhappened⟩, hhappened⟩
  · exact Leads.of_ok (record_of_not_le hwarning hrefused) ⟨h.push hd, push_happened hd⟩

theorem Tallied.recordAll {list : List Diagnostic} (h : Tallied ds) (hhappened : ds.happened = true) :
    Leaves (recordAll list) ds Tallied := by
  induction list generalizing ds with
  | nil => exact Leads.of_pure h
  | cons d rest ih =>
    exact Leads.of_bind (h.record (.inr hhappened)) (fun _ _ ⟨htallied, hhappened⟩ => ih htallied hhappened)
      fun _ _ ⟨htallied, _⟩ => htallied

/-- Reports of errors start with the error. -/
theorem tallied_recording : Comparison.Recording (.ofInvariant Tallied) where
  happened h := h.1 ▸ rfl
  warn message l h := ⟨h.1 ▸ rfl, (h.2.warn rfl).1⟩
  warn_later _ _ _ := trivial
  report {r} hr := by
    refine .of_invariant fun ds h => ?_
    refine Leads.of_bind (h.record (.inl ?_)) (fun _ _ ⟨htallied, hhappened⟩ => htallied.recordAll hhappened)
      fun _ _ ⟨htallied, _⟩ => htallied
    rw [Report.severity_head, if_pos hr]

end Diagnostics

namespace Session

open Assembly (endState)

/-- However a run ends, the books are right. -/
theorem assemble_tallied {s : Session} (hlimit : 1 ≤ s.journal.diagnostics.limit) (source path : String)
    (output : Option Path) : Tallied (endState (assemble source path output) s).journal.diagnostics := by
  have halike : Alike (.ofInvariant Tallied) s.cleared s.cleared :=
    ⟨s.settings.maxErrors, s.settings.showWarnings, s.cleared.journal, rfl, rfl, .reset hlimit⟩
  rcases assemble_alike tallied_recording source path output halike with ⟨-, -, -, -, -, -, h⟩ | ⟨-, -, ⟨⟩⟩
  exact h

/-! ## How a run ends -/

variable {α : Type} {s t u : Session} {output : Option Path} {ds : Diagnostics}

structure Untouched (s t : Session) : Prop where
  settings : t.settings = s.settings
  tree : t.tree = s.tree
  image : t.image = s.image

theorem Untouched.trans (h : Untouched s t) (h' : Untouched t u) : Untouched s u :=
  ⟨h'.settings.trans h.settings, h'.tree.trans h.tree, h'.image.trans h.image⟩

def Troubled (t : Session) : Prop :=
  t.hasErrors = true ∨ t.journal.diagnostics.truncated = true

/-- What an answer of a run that was begun in a session stands for: without success there is trouble and no image, and
no file has changed; with success there is no error, and the image was written if an output was named. -/
def Answered (s : Session) (output : Option Path) : Bool → Session → Prop
  | false, t => Troubled t ∧ t.image = none ∧ t.tree = s.tree
  | true, t => t.hasErrors = false ∧ ∃ image, t.image = some image ∧
    match output with
    | none => t.tree = s.tree
    | some target => image.write s.settings.executable target s.tree = (t.tree, .ok ())

/-! ### Phases -/

theorem readProgram_untouched (path source : String) (s : Session) :
    Leaves (readProgram path source) s (Untouched s) :=
  readProgram_cases (fun _ _ _ => ⟨rfl, rfl, rfl⟩) fun abort _ _ => ofAbort_leaves abort _ ⟨rfl, rfl, rfl⟩

theorem generateImage_untouched (program : Program) (s : Session) :
    Leaves (generateImage program) s (Untouched s) :=
  generateImage_cases (fun _ _ _ => ⟨rfl, rfl, rfl⟩) fun abort _ _ => ofAbort_leaves abort _ ⟨rfl, rfl, rfl⟩

theorem generateImage_clean (program : Program) (s : Session) :
    Leads (generateImage program) s (fun phase t => ∀ image, phase = .finished (some image) → t.hasErrors = false)
      (fun _ _ => True) := by
  have hanswer := Assembly.compile_answer s.assemblySettings program { journal := s.journal }
  refine generateImage_cases (fun image? a hresult => ?_) fun abort a _ => ?_
  · rintro image ⟨⟩
    have hsome : true = !a.journal.diagnostics.happened := hanswer.at_ok hresult
    simpa [hasErrors] using hsome
  · refine (ofAbort_unfinished abort _).mono (fun phase _ h image hphase => ?_) fun _ _ h => h
    exact absurd hphase (h.2 (some image))

theorem recordLast_troubled (fault : Fault) (s : Session) :
    Leads (recordLast fault) s (fun _ t => Troubled t ∧ Untouched s t) (fun _ _ => False) := by
  refine Leads.of_ok (recordLast_eq fault s) ⟨?_, rfl, rfl, rfl⟩
  have hadd := recordAll_report (r := .fault fault) rfl s.journal.diagnostics
  refine Assembly.Call.endState_of_leads (P := fun ds => ds.happened = true ∨ ds.truncated = true) (hadd.mono ?_ ?_)
  · exact fun _ es hgrown => .inl (decide_eq_true (Nat.zero_lt_of_lt (hgrown.errorCount_lt rfl)))
  · exact fun _ es hcut => .inr hcut.truncated

theorem afterPhase_answers {path : String} {phase : Phase α} {next : α → Run Bool} (ht : Untouched s t)
    (himage : s.image = none) (hstopped : phase.IsStopped → Troubled t)
    (hnext : ∀ x, phase = .finished x → Leads (next x) t (Answered s output) fun _ _ => True) :
    Leads (afterPhase path phase next) t (Answered s output) fun _ _ => True := by
  cases phase with
  | finished x => exact hnext x rfl
  | stopped reason =>
    exact Leads.of_modify_bind (Leads.of_pure ⟨hstopped ⟨reason, rfl⟩, ht.image.trans himage, ht.tree⟩)
  | faulted fault =>
    refine Leads.of_bind (recordLast_troubled fault t) ?_ fun _ _ h => h.elim
    rintro _ u ⟨htroubled, hu⟩
    have hsu := ht.trans hu
    exact Leads.of_pure ⟨htroubled, hsu.image.trans himage, hsu.tree⟩

/-! ### Runs -/

theorem deliver_answers (path : String) (image : Image) (ht : Untouched s t) (himage : s.image = none)
    (hclean : t.hasErrors = false) : Leads (deliver path output image) t (Answered s output) fun _ _ => True := by
  cases output with
  | none => exact Leads.of_ok rfl ⟨hclean, image, rfl, ht.tree⟩
  | some target =>
    rcases hwrite : image.write t.settings.executable target t.tree with ⟨tree, result⟩
    have hwritten : writeImage image target t = afterWrite image target result { t with tree := tree } := by
      rw [writeImage_eq, hwrite]
    rcases result with ⟨fault | _ | e⟩ | _
    · obtain ⟨rfl, -⟩ := Image.write_fault hwrite
      exact Leads.of_ok_bind hwritten (afterPhase_answers ht himage (by rintro ⟨_, ⟨⟩⟩) (by simp))
    · exact Leads.of_error (bind_of_error hwritten) trivial
    · exact Leads.of_error (bind_of_error hwritten) trivial
    · refine Leads.of_ok_bind hwritten (Leads.of_ok rfl ⟨hclean, image, rfl, ?_⟩)
      rw [ht.settings, ht.tree] at hwrite
      exact hwrite

theorem translate_answers (path : String) (program : Program) (ht : Untouched s t) (himage : s.image = none)
    (hgrown : GrownBy Report.IsOfRun ds t.journal.diagnostics) :
    Leads (translate path output program) t (Answered s output) fun _ _ => True := by
  apply Leads.of_get
  split
  · rename_i hhappened
    exact Leads.of_pure ⟨.inl hhappened, ht.image.trans himage, ht.tree⟩
  · apply Leads.of_modify_bind
    let logged : Session :=
      { t with journal := { t.journal with log := t.journal.log ++ [.expanded path program.instructionCount] } }
    have hgenerate := ((generateImage_leads (s := logged) program hgrown).and (generateImage_clean program logged)).and
      (generateImage_untouched program logged)
    refine Leads.of_bind hgenerate ?_ fun _ _ _ => trivial
    rintro phase u ⟨⟨⟨hphase, hnone⟩, hsome⟩, hu⟩
    have hsu : Untouched s u := ht.trans ⟨hu.settings, hu.tree, hu.image⟩
    refine afterPhase_answers hsu himage ?_ ?_
    · rintro ⟨reason, rfl⟩
      exact hphase.2 rfl
    · rintro image? rfl
      cases image? with
      | none => exact Leads.of_pure ⟨.inl (hnone rfl), hsu.image.trans himage, hsu.tree⟩
      | some image => exact deliver_answers path image hsu himage (hsome image rfl)

theorem assemble_answers (source path : String) (output : Option Path) (s : Session) :
    Leads (assemble source path output) s (Answered s output) fun _ _ => True := by
  have hcleared : Leads (do
      note (.assembling path)
      afterPhase path (← readProgram path source) (translate path output)) s.cleared (Answered s.cleared output)
      fun _ _ => True := by
    apply Leads.of_modify_bind
    refine Leads.of_bind ((readProgram_leads path source _).and (readProgram_untouched path source _)) ?_
      fun _ _ _ => trivial
    rintro phase t ⟨hphase, ht⟩
    have hst : Untouched s.cleared t := ⟨ht.settings, ht.tree, ht.image⟩
    refine afterPhase_answers hst rfl ?_ ?_
    · rintro ⟨reason, rfl⟩
      exact hphase.2 rfl
    · rintro program rfl
      exact translate_answers path program hst rfl hphase
  exact Leads.of_eq (assemble_eq source path output s) hcleared

/-- A run under a limit of at least one that answers has succeeded just if no error is among its diagnostics, and just
if it leaves an image. With success and an output, the output leads to a file that holds the binary form of the image
and is marked if it is to be executable, the image is read back from it, and every other place is as it was. Without
success, or without an output, every file is as it was. -/
theorem assemble_verdict (s : Session) (hlimit : 1 ≤ s.journal.diagnostics.limit) (source path : String)
    (output : Option Path) :
    Leads (assemble source path output) s
      (fun success t =>
        (success = true ↔ ∀ d ∈ t.journal.diagnostics.entries, d.severity ≠ .error) ∧
        (success = true ↔ t.image.isSome = true) ∧
        (∀ target, success = true → output = some target → ∃ image bytes place marked,
          t.image = some image ∧ image.encode s.settings.executable = .ok bytes ∧
          t.tree.target target = .file place bytes marked ∧ (s.settings.executable = true → marked = true) ∧
          Image.read target t.tree = .ok image ∧
          ∀ other, other ≠ place → t.tree.entries.lookup other = s.tree.entries.lookup other) ∧
        (success = false ∨ output = none → t.tree = s.tree))
      fun _ _ => True := by
  have htallied := assemble_tallied hlimit source path output
  have hanswers := assemble_answers source path output s
  cases hrun : assemble source path output s with
  | error e t => exact Leads.of_error hrun trivial
  | ok success t =>
    have hbooks : Tallied t.journal.diagnostics := by simpa only [endState, hrun] using htallied
    refine Leads.of_ok hrun ?_
    have hanswered := hanswers.at_ok hrun
    cases success with
    | false =>
      obtain ⟨htroubled, himage, htree⟩ := hanswered
      have hhappened : t.journal.diagnostics.happened = true := htroubled.elim id hbooks.truncated
      obtain ⟨d, hd, herror⟩ := hbooks.happened_iff.1 hhappened
      refine ⟨⟨by simp, fun hall => absurd herror (hall d hd)⟩, by simp [himage], by simp, fun _ => htree⟩
    | true =>
      obtain ⟨hclean, image, himage, hfiles⟩ := hanswered
      refine ⟨⟨fun _ d hd herror => ?_, fun _ => rfl⟩, by simp [himage], ?_, ?_⟩
      · have hhappened : t.hasErrors = true := hbooks.happened_iff.2 ⟨d, hd, herror⟩
        simp [hhappened] at hclean
      · rintro target - rfl
        obtain ⟨bytes, place, marked, hencode, htarget, hmarked, hread, hothers⟩ := Image.write_isPut hfiles
        exact ⟨image, bytes, place, marked, himage, hencode, htarget, hmarked, hread, hothers⟩
      · intro hunwritten
        obtain rfl : output = none := hunwritten.resolve_left (by simp)
        exact hfiles

theorem assemble_verdict_entry :
    let s := start { maxErrors := 1 } {}
    1 ≤ s.journal.diagnostics.limit ∧
      ∃ t, assemble ".entry" "main" (some (Path.ofString "out")) s = .ok true t ∧
        (∀ d ∈ t.journal.diagnostics.entries, d.severity ≠ .error) ∧
        ∃ image bytes place, t.image = some image ∧ image.encode true = .ok bytes ∧
          t.tree.target (Path.ofString "out") = .file place bytes true ∧
          Image.read (Path.ofString "out") t.tree = .ok image := by
  intro s
  have hwritable : ∀ s ∈ [Statement.label none "entry"], s.isWritable = true := by decide
  have hspells : Spells ".entry".toList [.label "entry"] := Statement.spells_written hwritable
  have hstart : Unit.CanStart s.surroundings "main" := ⟨[], rfl⟩
  obtain ⟨ss, hss, hread⟩ := Program.read_of_yieldAll hstart hspells
    (Statement.yieldAll_terminals hwritable)
  obtain ⟨l, rfl⟩ : ∃ l, ss = [.label l "entry"] := by
    obtain ⟨s, rfl, hs⟩ := List.map_eq_singleton_iff.1 hss
    cases s <;> simp_all [Statement.unlocated]
  have hcompile (log : List Event) : ∃ a, Assembly.compile s.assemblySettings ⟨[.label l "entry"], "main"⟩
      { journal := ⟨s.journal.diagnostics, log⟩ } = .ok (some {}) a := ⟨_, rfl⟩
  obtain ⟨a, ha⟩ := hcompile _
  have hrun := assemble_of_compile (s := s) (hread _) rfl ha (some (Path.ofString "out"))
  obtain ⟨bytes, hbytes⟩ : ∃ bytes, Image.encode true {} = .ok bytes := ⟨_, rfl⟩
  have hopen : s.tree.openForWriting (Path.ofString "out") = .ok (["out"], false) := by decide +kernel
  obtain ⟨tree, hwrite⟩ := Image.write_isOk hopen hbytes
  obtain ⟨t, ht⟩ : ∃ t, assemble ".entry" "main" (some (Path.ofString "out")) s = .ok true t :=
    hrun ▸ deliver_of_write hwrite
  have hlimit : 1 ≤ s.journal.diagnostics.limit := by decide
  obtain ⟨hverdict, -, hfile, -⟩ := (assemble_verdict s hlimit _ _ _).at_ok ht
  obtain ⟨image, bytes, place, marked, himage, hencode, htarget, hmarked, hreadback, -⟩ := hfile _ rfl rfl
  obtain rfl : marked = true := hmarked rfl
  exact ⟨hlimit, t, ht, hverdict.1 rfl, image, bytes, place, himage, hencode, htarget, hreadback⟩
end Session

end AvmAssembler
