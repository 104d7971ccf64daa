import AvmAssembler.Proofs.Assembly.Escalation
import AvmAssembler.Proofs.Image.Codec
import AvmAssembler.Proofs.Runs
import AvmAssembler.Proofs.Source.Units

/-! # The phases of a run

A run reads its source, resolves the labels, generates the image and writes it. A phase that records an error is the
last one, and so is one that is aborted. A fatal fault that a phase has not recorded itself is recorded when the run is
closed, so no fatal fault is recorded twice and nothing follows it.
-/

namespace AvmAssembler

open Diagnostics
open Assembly (endState)

theorem Report.IsOfReading.isOwn {r : Report} (h : r.IsOfReading) : r.IsOwn := by
  cases r with
  | warning | missingEntry => trivial
  | fault f =>
    obtain ⟨cause, l⟩ := f
    rcases h with hsyntactic | ⟨path, failure, notes, searched, rfl⟩
    · cases cause <;> first | exact hsyntactic.elim | trivial
    · trivial

namespace Session

inductive Stage where
  | reading
  | resolution
  | generation
  | writing

def begun (s : Session) (path : String) : Journal :=
  ⟨s.journal.diagnostics.reset, s.journal.log ++ [.assembling path]⟩

def expanded (path : String) (program : Program) (j : Journal) : Journal :=
  { j with log := j.log ++ [.expanded path program.instructionCount] }

/-- The journal of a run that is closed because a phase was aborted. -/
def closed (path : String) (abort : Abort) (j : Journal) : Journal :=
  match abort with
  | .recorded => { j with log := j.log ++ [.stopped path abortMessage] }
  | .limit e => { j with log := j.log ++ [.stopped path e.message] }
  | .fatal fault => { j with diagnostics := endState (Diagnostics.add fault) j.diagnostics }
  | .numeral _ | .search _ => j

/-- What a phase comes to: the journal that it leaves, and whether the run goes on with another phase. -/
def conducted {σ α : Type} (path : String) (journal : σ → Journal) (goesOn : α → σ → Bool)
    (phase : EStateM Abort σ α) (x : σ) : Journal × Bool :=
  match phase x with
  | .ok y z => (journal z, goesOn y z)
  | .error abort z => (closed path abort (journal z), false)

def delivered (path : String) (image : Image) (target : Path) (result : Except WriteError Unit) (j : Journal) :
    Journal :=
  match result with
  | .ok () =>
    { j with log := j.log ++ [.wrote target.written image.records.length image.memory.length image.entryPoint] }
  | .error (.fault fault) => closed path (.fatal fault) j
  | .error _ => j

/-- The phases for which a run provides what they need, whether or not it comes to them: the journal with which such a
phase begins, and what it comes to. -/
inductive Ready (s : Session) (source path : String) (output : Option Path) : Stage → Journal → Journal × Bool → Prop
  | reading :
    Ready s source path output .reading (s.begun path)
      (conducted path id (fun _ j => !j.diagnostics.happened) (Program.read s.surroundings path source) (s.begun path))
  | resolution {program j} :
    Program.read s.surroundings path source (s.begun path) = .ok program j →
    Ready s source path output .resolution (expanded path program j)
      (conducted path Assembly.journal (fun answer _ => answer) (Assembly.resolve s.assemblySettings program)
        { journal := expanded path program j })
  | generation {program j a} :
    Program.read s.surroundings path source (s.begun path) = .ok program j →
    Assembly.resolve s.assemblySettings program { journal := expanded path program j } = .ok true a →
    Ready s source path output .generation a.journal
      (conducted path Assembly.journal (fun image? _ => image?.isSome && output.isSome)
        (Assembly.generate s.assemblySettings program) a)
  | writing {program j a image b target} :
    Program.read s.surroundings path source (s.begun path) = .ok program j →
    Assembly.resolve s.assemblySettings program { journal := expanded path program j } = .ok true a →
    Assembly.generate s.assemblySettings program a = .ok (some image) b → output = some target →
    Ready s source path output .writing b.journal
      (delivered path image target (image.write s.settings.executable target s.tree).2 b.journal, false)

variable {s : Session} {source path : String} {output : Option Path} {stage : Stage} {j k : Journal} {abort : Abort}
  {program : Program} {a b : Assembly}

/-! ## What phases record -/

theorem laidOut_of_resolve {a : Assembly} (h : Assembly.resolve s.assemblySettings program { journal := j } = .ok true a) :
    a.LaidOut :=
  (Assembly.laidOut_empty j).steps ((Assembly.resolve_leads _ _ _).at_ok h).1

theorem add_culminates {P : Report → Prop} {fault : Fault} (h : P (.fault fault)) (ds : Diagnostics) :
    Culminates P ds (endState (Diagnostics.add fault) ds) := by
  have hadd : Leads (Diagnostics.add fault) ds (fun _ es => Culminates P ds es) (fun _ es => Culminates P ds es) :=
    (recordAll_report (r := .fault fault) rfl ds).mono
      (fun _ _ hgrown => ⟨ds, .refl ds, .inr ⟨_, h, .inl hgrown⟩⟩) fun _ _ hcut => ⟨ds, .refl ds, .inr ⟨_, h, .inr hcut⟩⟩
  exact Assembly.Call.endState_of_leads hadd

theorem closed_culminates {P : Report → Prop} {N : Abort → Prop} {ds : Diagnostics}
    (h : Ended P N ds j.diagnostics abort) : Culminates P ds (closed path abort j).diagnostics := by
  obtain ⟨ms, hms, hlast⟩ := h
  cases abort with
  | recorded =>
    obtain ⟨f, -, hf, hgrown⟩ := hlast
    exact ⟨ms, hms, .inr ⟨_, hf, .inl hgrown⟩⟩
  | limit e =>
    obtain ⟨r, hr, hcut⟩ := hlast
    exact ⟨ms, hms, .inr ⟨r, hr, .inr hcut⟩⟩
  | fatal f =>
    obtain ⟨-, -, hf, rfl⟩ := hlast
    exact (add_culminates hf _).after hms
  | numeral e | search e => exact ⟨ms, hms, .inl hlast.2⟩

theorem conducted_culminates {σ α : Type} {journal : σ → Journal} {goesOn : α → σ → Bool} {P : Report → Prop}
    {N : Abort → Prop} {phase : EStateM Abort σ α} {x : σ}
    (h : Escalates (fun x => (journal x).diagnostics) P N phase x) :
    Culminates P (journal x).diagnostics (conducted path journal goesOn phase x).1.diagnostics := by
  unfold conducted
  cases hphase : phase x with
  | ok y z => exact GrownBy.culminates (h.at_ok hphase)
  | error abort z => exact closed_culminates (h.at_error hphase)

theorem read_escalates (s : Session) (source path : String) (j : Journal) :
    Escalates Journal.diagnostics Report.IsOwn (fun _ => True) (Program.read s.surroundings path source) j :=
  (Program.read_escalates s.surroundings path source j).mono (fun _ => Report.IsOfReading.isOwn) fun _ _ => trivial

/-- A phase begins behind reports that are not fatal. -/
theorem Ready.passed {r : Journal × Bool} (h : Ready s source path output stage j r) :
    GrownBy (Report.Passes Report.IsOwn) s.journal.diagnostics.reset j.diagnostics := by
  have hread : ∀ {program k}, Program.read s.surroundings path source (s.begun path) = .ok program k →
      GrownBy (Report.Passes Report.IsOwn) s.journal.diagnostics.reset k.diagnostics :=
    fun h => (read_escalates s source path (s.begun path)).at_ok h
  have hresolve : ∀ {program k a}, Program.read s.surroundings path source (s.begun path) = .ok program k →
      Assembly.resolve s.assemblySettings program { journal := expanded path program k } = .ok true a →
      GrownBy (Report.Passes Report.IsOwn) s.journal.diagnostics.reset a.journal.diagnostics :=
    fun h h' => (hread h).trans ((Assembly.resolve_escalates _ _ _).at_ok h')
  cases h with
  | reading => exact .refl _
  | resolution h =>
    have hgrown := hread h
    exact hgrown
  | generation h h' => exact hresolve h h'
  | writing h h' hgenerate _ =>
    exact (hresolve h h').trans ((Assembly.generate_escalates _ _ (laidOut_of_resolve h')).at_ok hgenerate)

theorem Ready.culminates {goesOn : Bool} (h : Ready s source path output stage j (k, goesOn)) :
    Culminates Report.IsOwn j.diagnostics k.diagnostics := by
  generalize hr : (k, goesOn) = r at h
  obtain rfl : k = r.1 := congrArg Prod.fst hr
  cases h with
  | reading => exact conducted_culminates (read_escalates s source path _)
  | @resolution program j _ =>
    exact conducted_culminates (Assembly.resolve_escalates _ program { journal := expanded path program j })
  | generation _ h' => exact conducted_culminates (Assembly.generate_escalates _ _ (laidOut_of_resolve h'))
  | @writing program j a image b target _ _ _ _ =>
    cases hwrite : (image.write s.settings.executable target s.tree).2 with
    | ok _ => exact GrownBy.culminates (.refl _)
    | error e =>
      cases e with
      | fault fault =>
        obtain ⟨-, e, rfl⟩ := Image.write_fault (Prod.ext rfl hwrite)
        exact add_culminates trivial _
      | _ => exact GrownBy.culminates (.refl _)

/-! ## The last phase -/

theorem compile_of_resolve {settings : AssemblySettings} (h : Assembly.resolve settings program a = .ok true b) :
    Assembly.compile settings program a = Assembly.generate settings program b :=
  bind_of_ok h

theorem happened_of_resolve {settings : AssemblySettings} (h : Assembly.resolve settings program a = .ok true b) :
    a.journal.diagnostics.happened = false := by
  obtain ⟨-, -, hresolved⟩ := (Assembly.resolve_leads settings program a).at_ok h
  exact Assembly.errors_eq_zero_iff.2 (hresolved rfl).errors.1

theorem happened_of_generate {settings : AssemblySettings} {image : Image} {c : Assembly}
    (h : Assembly.resolve settings program a = .ok true b)
    (h' : Assembly.generate settings program b = .ok (some image) c) : c.journal.diagnostics.happened = false := by
  rw [← compile_of_resolve h] at h'
  have hanswer : true = !c.journal.diagnostics.happened := (Assembly.compile_answer settings program a).at_ok h'
  simpa using hanswer.symm

theorem severity_of_generate {image : Image}
    (hread : Program.read s.surroundings path source (s.begun path) = .ok program j)
    (hresolve : Assembly.resolve s.assemblySettings program { journal := expanded path program j } = .ok true a)
    (hgenerate : Assembly.generate s.assemblySettings program a = .ok (some image) b) :
    ∀ d ∈ b.journal.diagnostics.entries, d.severity ≠ .error := by
  have hready := Ready.writing hread hresolve hgenerate (rfl : some (Path.ofString "") = _)
  exact hready.passed.severity_ne (happened_of_generate hresolve hgenerate)

/-- One of the phases is the last: what it needs is there, it begins without errors, and the run does not go on. -/
theorem exists_last (s : Session) (source path : String) (output : Option Path) :
    ∃ stage j k, Ready s source path output stage j (k, false) ∧ j.diagnostics.happened = false := by
  have hlast : ∀ {stage : Stage} {j : Journal} {r : Journal × Bool}, Ready s source path output stage j r →
      j.diagnostics.happened = false → r.2 = false →
      ∃ stage j k, Ready s source path output stage j (k, false) ∧ j.diagnostics.happened = false := by
    rintro stage j ⟨k, goesOn⟩ h hclean rfl
    exact ⟨stage, j, k, h, hclean⟩
  cases hread : Program.read s.surroundings path source (s.begun path) with
  | error abort k => exact hlast .reading rfl (by simp only [conducted, hread])
  | ok program j =>
    by_cases hhappened : j.diagnostics.happened = true
    · exact hlast .reading rfl (by simp only [conducted, hread, hhappened, Bool.not_true])
    rw [Bool.not_eq_true] at hhappened
    cases hresolve : Assembly.resolve s.assemblySettings program { journal := expanded path program j } with
    | error abort a => exact hlast (.resolution hread) hhappened (by simp only [conducted, hresolve])
    | ok answer a =>
      cases answer with
      | false => exact hlast (.resolution hread) hhappened (by simp only [conducted, hresolve])
      | true =>
        have hclean := (Assembly.resolve_answer s.assemblySettings program _).at_ok hresolve
        have hclean : a.journal.diagnostics.happened = false := by simpa using hclean.symm
        cases hgenerate : Assembly.generate s.assemblySettings program a with
        | error abort b => exact hlast (.generation hread hresolve) hclean (by simp only [conducted, hgenerate])
        | ok image? b =>
          cases image? with
          | none => exact hlast (.generation hread hresolve) hclean (by simp [conducted, hgenerate])
          | some image =>
            cases output with
            | none => exact hlast (.generation hread hresolve) hclean (by simp [conducted, hgenerate])
            | some target =>
              exact hlast (.writing hread hresolve hgenerate rfl) (happened_of_generate hresolve hgenerate) rfl

/-- The run ends with the journal, and without success if there is an error in it. -/
def EndsWith (k : Journal) (success : Bool) (t : Session) : Prop :=
  t.journal = k ∧ (success = true → ∀ d ∈ k.diagnostics.entries, d.severity ≠ .error)

theorem ofAbort_ends {α : Type} (abort : Abort) (next : α → Run Bool) (u : Session) :
    Leads (do afterPhase path (← (ofAbort abort : Run (Phase α))) next) u (EndsWith (closed path abort u.journal))
      fun _ _ => True := by
  cases abort with
  | recorded | limit => exact Leads.of_ok rfl ⟨rfl, by simp⟩
  | fatal fault =>
    refine Leads.of_ok_bind (x := .faulted fault) (t := u) rfl ?_
    exact Leads.of_ok_bind (recordLast_eq fault u) (Leads.of_ok rfl ⟨rfl, by simp⟩)
  | numeral e | search e => exact Leads.of_error rfl trivial

theorem assemble_of_read_error (h : Program.read s.surroundings path source (s.begun path) = .error abort j) :
    Leads (assemble source path output) s (EndsWith (closed path abort j)) fun _ _ => True := by
  have hread : readProgram path source { s.cleared with journal := s.begun path } =
      ofAbort abort { s.cleared with journal := j } := readProgram_of_error h
  exact Leads.of_eq ((assemble_begun source path output s).trans (bind_of_eq hread)) (ofAbort_ends abort _ _)

section

variable (hread : Program.read s.surroundings path source (s.begun path) = .ok program j)

include hread

theorem assemble_of_errors (h : ∃ d ∈ j.diagnostics.entries, d.severity = .error) :
    Leads (assemble source path output) s (EndsWith j) fun _ _ => True := by
  have hhappened : j.diagnostics.happened = true :=
    ((read_escalates s source path (s.begun path)).at_ok hread).happened_iff.2 h
  refine Leads.of_eq (assemble_of_read hread output) ?_
  apply Leads.of_get
  rw [if_pos hhappened]
  exact Leads.of_pure ⟨rfl, by simp⟩

theorem assemble_of_clean (hclean : j.diagnostics.happened = false) :
    assemble source path output s =
      (do
        afterPhase path (← generateImage program) fun image? => do
          let some image := image? | return false
          deliver path output image) { s.cleared with journal := expanded path program j } := by
  rw [assemble_of_read hread output, translate, get_bind, if_neg (by simp [hclean])]
  rfl

end

section

variable (hread : Program.read s.surroundings path source (s.begun path) = .ok program j)
  (hclean : j.diagnostics.happened = false)

include hread hclean

theorem assemble_of_compile_error
    (h : Assembly.compile s.assemblySettings program { journal := expanded path program j } = .error abort a) :
    Leads (assemble source path output) s (EndsWith (closed path abort a.journal)) fun _ _ => True := by
  refine Leads.of_eq (assemble_of_clean hread hclean) ?_
  exact Leads.of_eq (bind_of_eq (generateImage_of_error h)) (ofAbort_ends abort _ _)

theorem assemble_of_no_image
    (h : Assembly.compile s.assemblySettings program { journal := expanded path program j } = .ok none a) :
    Leads (assemble source path output) s (EndsWith a.journal) fun _ _ => True := by
  refine Leads.of_eq (assemble_of_clean hread hclean) ?_
  exact Leads.of_ok_bind (generateImage_of_ok h) (Leads.of_pure ⟨rfl, by simp⟩)

end

/-- An attempt to write the image is the last that a run does. -/
theorem deliver_ends {image : Image} {target : Path} {u : Session}
    (hclean : ∀ d ∈ u.journal.diagnostics.entries, d.severity ≠ .error) :
    Leads (deliver path (some target) image) u
      (EndsWith (delivered path image target (image.write u.settings.executable target u.tree).2 u.journal))
      fun _ _ => True := by
  rcases hwrite : image.write u.settings.executable target u.tree with ⟨tree, result⟩
  have hwritten : writeImage image target u = afterWrite image target result { u with tree := tree } := by
    rw [writeImage_eq, hwrite]
  rcases result with ⟨fault | _ | e⟩ | _
  · have hfault : writeImage image target u = ofAbort (.fatal fault) { u with tree := tree } := hwritten
    exact Leads.of_eq (bind_of_eq hfault) (ofAbort_ends (.fatal fault) _ _)
  · exact Leads.of_error (bind_of_error hwritten) trivial
  · exact Leads.of_error (bind_of_error hwritten) trivial
  · exact Leads.of_ok_bind hwritten (Leads.of_ok rfl ⟨rfl, fun _ => hclean⟩)

theorem conducted_cases {σ α : Type} {journal : σ → Journal} {goesOn : α → σ → Bool} {phase : EStateM Abort σ α}
    {x : σ} {onward : Bool} (h : (k, onward) = conducted path journal goesOn phase x) :
    (∃ y z, phase x = .ok y z ∧ k = journal z ∧ onward = goesOn y z) ∨
      ∃ abort z, phase x = .error abort z ∧ k = closed path abort (journal z) ∧ onward = false := by
  unfold conducted at h
  cases hphase : phase x with
  | ok y z =>
    rw [hphase] at h
    exact .inl ⟨y, z, rfl, congrArg Prod.fst h, congrArg Prod.snd h⟩
  | error abort z =>
    rw [hphase] at h
    exact .inr ⟨abort, z, rfl, congrArg Prod.fst h, congrArg Prod.snd h⟩

/-- Where a phase that begins without errors is the last one, the run ends with the journal that it leaves. -/
theorem Ready.ends (h : Ready s source path output stage j (k, false)) (hclean : j.diagnostics.happened = false) :
    Leads (assemble source path output) s (EndsWith k) fun _ _ => True := by
  generalize hr : (k, false) = r at h
  cases h with
  | reading =>
    rcases conducted_cases hr with ⟨program, read, hread, hk, hlast⟩ | ⟨abort, read, hread, rfl, -⟩
    · obtain rfl : k = read := hk
      have hhappened : k.diagnostics.happened = true := by simpa using hlast.symm
      refine assemble_of_errors hread ?_
      exact ((read_escalates s source path (s.begun path)).at_ok hread).happened_iff.1 hhappened
    · exact assemble_of_read_error hread
  | @resolution program begun hread =>
    have hclean : begun.diagnostics.happened = false := hclean
    rcases conducted_cases hr with ⟨answer, a, hresolve, rfl, rfl⟩ | ⟨abort, a, hresolve, rfl, -⟩
    · exact assemble_of_no_image hread hclean (bind_of_ok hresolve)
    · exact assemble_of_compile_error hread hclean (bind_of_error hresolve)
  | @generation program j a hread hresolve =>
    have hcompile := compile_of_resolve hresolve
    rcases conducted_cases hr with ⟨image?, b, hgenerate, rfl, hlast⟩ | ⟨abort, b, hgenerate, rfl, -⟩
    · cases image? with
      | none => exact assemble_of_no_image hread (happened_of_resolve hresolve) (hcompile.trans hgenerate)
      | some image =>
        obtain rfl : output = none := by simpa using hlast.symm
        refine Leads.of_eq
          (assemble_of_compile hread (happened_of_resolve hresolve) (hcompile.trans hgenerate) none) ?_
        exact Leads.of_ok rfl ⟨rfl, fun _ => severity_of_generate hread hresolve hgenerate⟩
    · exact assemble_of_compile_error hread (happened_of_resolve hresolve) (hcompile.trans hgenerate)
  | @writing program j a image b target hread hresolve hgenerate houtput =>
    subst houtput
    obtain rfl : k = _ := congrArg Prod.fst hr
    refine Leads.of_eq (assemble_of_compile hread (happened_of_resolve hresolve)
      ((compile_of_resolve hresolve).trans hgenerate) (some target)) ?_
    exact deliver_ends (severity_of_generate hread hresolve hgenerate)

/-- The run does not go on behind a phase that leaves errors. -/
theorem Ready.stops {goesOn : Bool} (h : Ready s source path output stage j (k, goesOn))
    (herror : ∃ d ∈ k.diagnostics.entries, d.severity = .error) : goesOn = false := by
  generalize hr : (k, goesOn) = r at h
  cases h with
  | reading =>
    rcases conducted_cases hr with ⟨program, read, hread, hk, rfl⟩ | ⟨-, -, -, -, rfl⟩
    · obtain rfl : k = read := hk
      rw [((read_escalates s source path (s.begun path)).at_ok hread).happened_iff.2 herror, Bool.not_true]
    · rfl
  | @resolution program read hread =>
    rcases conducted_cases hr with ⟨answer, a, hresolve, rfl, rfl⟩ | ⟨-, -, -, -, rfl⟩
    · have hpassed := (read_escalates s source path (s.begun path)).at_ok hread
      have hgrown := hpassed.trans ((Assembly.resolve_escalates _ _ _).at_ok hresolve)
      have hanswer := (Assembly.resolve_answer _ _ _).at_ok hresolve
      rwa [hgrown.happened_iff.2 herror] at hanswer
    · rfl
  | @generation program read a hread hresolve =>
    rcases conducted_cases hr with ⟨image?, b, hgenerate, rfl, rfl⟩ | ⟨-, -, -, -, rfl⟩
    · cases image? with
      | none => rfl
      | some image =>
        obtain ⟨d, hd, hseverity⟩ := herror
        exact absurd hseverity (severity_of_generate hread hresolve hgenerate d hd)
    · rfl
  | writing => exact congrArg Prod.snd hr

/-- A run that answers has a last phase: it begins without an error, and the run ends with the journal that it leaves.
Whenever what a phase needs is there, it begins without an error and leaves one, it is the last phase, and the run ends
without success. What reads as a fatal fault in the diagnostics is one; no other one is before it, and behind it stand
notes of this fault and nothing else, all of them unless the limit was exceeded. -/
theorem assemble_phases (s : Session) (source path : String) (output : Option Path) :
    Leads (assemble source path output) s
      (fun success t =>
        (∃ stage j, Ready s source path output stage j (t.journal, false) ∧
          (∀ d ∈ j.diagnostics.entries, d.severity ≠ .error) ∧
          j.diagnostics.entries <+: t.journal.diagnostics.entries) ∧
        (∀ stage j k goesOn, Ready s source path output stage j (k, goesOn) →
          (∀ d ∈ j.diagnostics.entries, d.severity ≠ .error) → (∃ d ∈ k.diagnostics.entries, d.severity = .error) →
          t.journal = k ∧ success = false) ∧
        ∀ before d after, t.journal.diagnostics.entries = before ++ d :: after → d.ReadsFatal →
          (∀ other ∈ before, ¬other.ReadsFatal) ∧ ∃ fault : Fault, fault.cause.IsFatal ∧
            d = (Report.fault fault).head ∧ after <+: (Report.fault fault).notes ∧
            (t.journal.diagnostics.truncated = false → after = (Report.fault fault).notes))
      fun _ _ => True := by
  cases hrun : assemble source path output s with
  | error e t => exact Leads.of_error hrun trivial
  | ok success t =>
    obtain ⟨stage, j, k, hready, hclean⟩ := exists_last s source path output
    obtain ⟨rfl, -⟩ := (hready.ends hclean).at_ok hrun
    refine Leads.of_ok hrun ⟨⟨stage, j, hready, hready.passed.severity_ne hclean, ?_⟩, ?_, ?_⟩
    · obtain ⟨reports, part, hentries, -⟩ := hready.culminates.entries
      rw [hentries, List.append_assoc]
      exact List.prefix_append _ _
    · intro stage' j' k' goesOn hready' hclean' herror
      obtain rfl := hready'.stops herror
      have hclean' : j'.diagnostics.happened = false := by
        by_contra hhappened
        obtain ⟨d, hd, hseverity⟩ := hready'.passed.happened_iff.1 (by simpa using hhappened)
        exact hclean' d hd hseverity
      obtain ⟨hjournal, hsuccess⟩ := (hready'.ends hclean').at_ok hrun
      refine ⟨hjournal, ?_⟩
      by_contra hother
      obtain ⟨d, hd, hseverity⟩ := herror
      exact hsuccess (by simpa using hother) d hd hseverity
    · intro before d after hentries hd
      exact (hready.culminates.after hready.passed).of_readsFatal rfl hentries hd

end Session

end AvmAssembler
