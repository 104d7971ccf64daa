import AvmAssembler.Proofs.Assembly.Effect
import Mathlib.Logic.Relation

/-! # The passes step by step

A pass takes an assembly through steps, each of which adds something that fits behind what is there. This holds however
the pass ends. A pass that records no error is known in full: the first has bound every label to the number of
instructions before it, and in the second every statement has had its effect.
-/

namespace AvmAssembler

open Diagnostics

namespace Assembly

/-! ## Reports -/

section

variable {α : Type} {r : Reporting α} {a : Assembly} {j : Journal}

theorem reporting_of_ok {x : α} (h : r a.journal = .ok x j) : reporting r a = .ok x { a with journal := j } := by
  simp only [reporting, h]

theorem reporting_of_error {e : Abort} (h : r a.journal = .error e j) :
    reporting r a = .error e { a with journal := j } := by
  simp only [reporting, h]

end

theorem reporting_leads {α : Type} {r : Reporting α} {ok : α → Journal → Prop} {failed : Abort → Journal → Prop}
    (a : Assembly) (h : Leads r a.journal ok failed) :
    Leads (reporting r) a (fun x b => b = { a with journal := b.journal } ∧ ok x b.journal)
      (fun e b => b = { a with journal := b.journal } ∧ failed e b.journal) := by
  cases hr : r a.journal with
  | ok x j => exact Leads.of_ok (reporting_of_ok hr) ⟨rfl, h.at_ok hr⟩
  | error e j => exact Leads.of_error (reporting_of_error hr) ⟨rfl, h.at_error hr⟩

theorem report_leads (fault : Fault) (a : Assembly) :
    Leads (reporting (Journal.report fault)) a
      (fun _ b => b = { a with journal := b.journal } ∧
        Grown [.fault fault] a.journal.diagnostics b.journal.diagnostics)
      (fun e b => b = { a with journal := b.journal } ∧
        Last (· = .fault fault) (fun _ => False) a.journal.diagnostics b.journal.diagnostics e) :=
  reporting_leads a (Journal.report_leads (P := (· = .fault fault)) rfl a.journal)

theorem missingEntry_leads (label : String) (a : Assembly) :
    Leads (reporting (Journal.recording (record (Report.missingEntry label).head))) a
      (fun _ b => b = { a with journal := b.journal } ∧
        Grown [.missingEntry label] a.journal.diagnostics b.journal.diagnostics)
      (fun e b => b = { a with journal := b.journal } ∧
        Last (· = .missingEntry label) (fun _ => False) a.journal.diagnostics b.journal.diagnostics e) :=
  reporting_leads a
    (Journal.recording_leads (P := (· = .missingEntry label)) a.journal rfl (record_missingEntry label _))

theorem errors_lt_of_grown {a b : Assembly} {r : Report} (hr : r.isError = true)
    (h : Grown [r] a.journal.diagnostics b.journal.diagnostics) : a.errors < b.errors :=
  h.errorCount_lt hr

/-! ## Steps -/

/-- A growth fits an assembly: it adds records, or a free name that is no region, or a region of all the bytes that are
added to the memory. -/
inductive Growth.Fits (a : Assembly) : Growth → Prop
  | records (rs : List Record) : Fits a { records := rs }
  | name {name symbol} : a.symbols.get? name = none → symbol.meaning.kind ≠ .region →
      Fits a { entries := [(name, symbol)] }
  | region {name l} {bytes : List UInt8} : a.symbols.get? name = none →
      Fits a { entries := [(name, ⟨l, .region a.memory.length bytes.length⟩)], bytes := bytes }

theorem Effect.fits {env : Surroundings} {a : Assembly} {s : Statement} {g : Growth}
    (h : Effect env a s g) : g.Fits a := by
  cases h with
  | label | nullary | unary => exact .records _
  | constant hfree => exact .name hfree (by simp [Meaning.kind])
  | region hfree | embedding hfree => exact .region hfree

theorem Failure.fits {a : Assembly} {s : Statement} {fault : Fault} {g : Growth} (h : Failure a s fault g) :
    g.Fits a := by
  cases h with
  | taken | embedding | nameless => exact .records []
  | constant hfree => exact .name hfree (by simp [Meaning.kind])
  | region hfree => exact @Growth.Fits.region a _ _ [] hfree

/-- The later state has a growth that fits; its entry point and its journal may be any. -/
def Step (a b : Assembly) : Prop :=
  ∃ g : Growth, g.Fits a ∧
    b = { a.grow g with entryPoint := b.entryPoint, journal := b.journal }

abbrev Steps : Assembly → Assembly → Prop := Relation.ReflTransGen Step

theorem Step.of_grow {a b : Assembly} {g : Growth} (hfits : g.Fits a)
    (h : b = { a.grow g with journal := b.journal }) : Step a b := by
  refine ⟨g, hfits, ?_⟩
  have hentry : b.entryPoint = (a.grow g).entryPoint := by rw [h]
  rw [hentry]
  exact h

theorem Steps.of_code {a b : Assembly} (hsymbols : b.symbols = a.symbols) (hmemory : b.memory = a.memory)
    (hrecords : b.records = a.records) : Steps a b := by
  refine .single ⟨{}, .records [], ?_⟩
  obtain ⟨symbols, entryPoint, memory, records, journal⟩ := b
  obtain rfl : symbols = a.symbols := hsymbols
  obtain rfl : memory = a.memory := hmemory
  obtain rfl : records = a.records := hrecords
  rw [grow_nothing]

theorem Steps.of_quiet {a b : Assembly} (h : Quiet a b) : Steps a b :=
  Steps.of_code h.symbols h.memory h.records

theorem Steps.of_journal {a b : Assembly} (h : b = { a with journal := b.journal }) : Steps a b := by
  apply Steps.of_code <;> rw [h]

/-! ## First pass -/

/-- The labels of statements, each at the number of instructions before it; the numbers start at an address. -/
def labelEntries (address : Nat) : List Statement → List (String × Symbol)
  | [] => []
  | .label l name :: rest => (name, ⟨l, .label address⟩) :: labelEntries address rest
  | .instruction .. :: rest => labelEntries (address + 1) rest
  | _ :: rest => labelEntries address rest

/-- How binding labels ends, told from where it started. -/
def Bound (address : Nat) (ss : List Statement) (a : Assembly) (count : Nat) (b : Assembly) : Prop :=
  Steps a b ∧ a.errors ≤ b.errors ∧
    (b.errors = a.errors → count = address + ss.countP Statement.isInstruction ∧
      b = a.grow { entries := labelEntries address ss })

namespace Bound

variable {address count : Nat} {s : Statement} {rest : List Statement} {a b c : Assembly}

theorem of_error {ss : List Statement} (hb : b = { a with journal := b.journal }) (herror : a.errors < b.errors)
    (h : Bound address rest b count c) : Bound address ss a count c := by
  obtain ⟨hsteps, herrors, -⟩ := h
  exact ⟨(Steps.of_journal hb).trans hsteps, by omega, by omega⟩

theorem of_label {l : Option Location} {name : String} (hfree : a.symbols.get? name = none)
    (hb : b = a.grow { entries := [(name, ⟨l, .label address⟩)] }) (h : Bound address rest b count c) :
    Bound address (.label l name :: rest) a count c := by
  obtain ⟨hsteps, herrors, hclean⟩ := h
  subst hb
  refine ⟨.head ?_ hsteps, herrors, fun hsame => ?_⟩
  · exact .of_grow (.name hfree (by simp [Meaning.kind])) rfl
  · obtain ⟨hcount, hc⟩ := hclean hsame
    exact ⟨by simpa [Statement.isInstruction] using hcount, by simp [hc, grow, labelEntries]⟩

theorem of_instruction {l : Option Location} {name : String} {argument : Option Expr}
    (h : Bound (address + 1) rest a count c) : Bound address (.instruction l name argument :: rest) a count c := by
  obtain ⟨hsteps, herrors, hclean⟩ := h
  refine ⟨hsteps, herrors, fun hsame => ?_⟩
  obtain ⟨hcount, hc⟩ := hclean hsame
  refine ⟨?_, hc⟩
  rw [List.countP_cons_of_pos rfl]
  omega

theorem of_other (hlabels : labelEntries address (s :: rest) = labelEntries address rest)
    (hother : s.isInstruction = false) (h : Bound address rest a count c) :
    Bound address (s :: rest) a count c := by
  obtain ⟨hsteps, herrors, hclean⟩ := h
  refine ⟨hsteps, herrors, fun hsame => ?_⟩
  rw [hlabels, List.countP_cons_of_neg (by simp [hother])]
  exact hclean hsame

end Bound

theorem bindLabels_leads (address : Nat) (declared : Pending) (ss : List Statement) (a : Assembly) :
    Leads (bindLabels address declared ss) a (Bound address ss a) (fun _ b => Steps a b) := by
  induction ss generalizing address declared a with
  | nil => exact Leads.of_pure ⟨.refl, Nat.le_refl _, fun _ => ⟨rfl, by simp [labelEntries]⟩⟩
  | cons s rest ih =>
    have hreport : ∀ fault, Leads (do reporting (Journal.report fault); bindLabels address declared rest) a
        (Bound address (s :: rest) a) (fun _ b => Steps a b) := by
      intro fault
      refine Leads.of_bind (report_leads fault a) ?_ fun _ _ h => .of_journal h.1
      rintro _ b ⟨hb, hgrown⟩
      exact (ih address declared b).mono (fun _ _ h => h.of_error hb (errors_lt_of_grown rfl hgrown))
        fun _ _ h => (Steps.of_journal hb).trans h
    cases s with
    | label l name =>
      rw [bindLabels]
      split
      · exact hreport _
      · apply Leads.of_get
        split
        · rename_i symbols hdefine
          obtain ⟨hfree, rfl⟩ := SymbolTable.define_eq_ok.1 hdefine
          have hgrow : { a with symbols := a.symbols.push name ⟨l, .label address⟩ } =
              a.grow { entries := [(name, ⟨l, .label address⟩)] } := by
            simp [grow, SymbolTable.push]
          have hstep : Step a { a with symbols := a.symbols.push name ⟨l, .label address⟩ } := by
            rw [hgrow]
            exact .of_grow (.name hfree (by simp [Meaning.kind])) rfl
          refine Leads.of_modify_bind ((ih address declared _).mono ?_ fun _ _ h => .head hstep h)
          exact fun _ _ h => h.of_label hfree hgrow
        · exact hreport _
    | instruction l name argument =>
      rw [bindLabels]
      exact (ih (address + 1) declared a).mono (fun _ _ h => h.of_instruction) fun _ _ h => h
    | constant l name e | region l name type es | embedding l name path =>
      rw [bindLabels]
      · simp only [Statement.lateName?]
        split <;> exact (ih address _ a).mono (fun _ _ h => h.of_other rfl rfl) fun _ _ h => h
      all_goals simp
    | foreign l kind =>
      rw [bindLabels]
      · exact (ih address _ a).mono (fun _ _ h => h.of_other rfl rfl) fun _ _ h => h
      all_goals simp

theorem note_eq (e : Event) (a : Assembly) :
    reporting (Journal.note e) a = .ok () { a with journal := { a.journal with log := a.journal.log ++ [e] } } := rfl

theorem note_leads (e : Event) (a : Assembly) :
    Leads (reporting (Journal.note e)) a (fun _ b => Quiet a b) (fun _ _ => False) :=
  Leads.of_ok (note_eq e a) ⟨rfl, .refl _⟩

theorem errors_eq_zero_iff {a : Assembly} : a.journal.diagnostics.happened = false ↔ a.errors = 0 := by
  simp [Diagnostics.happened, errors]

/-- What the first pass has done when code can be generated: all labels are bound, that of the entry among them, and
no error is known. -/
structure Resolved (settings : AssemblySettings) (program : Program) (a b : Assembly) : Prop where
  errors : a.errors = 0 ∧ b.errors = 0
  symbols : b.symbols = (a.grow { entries := labelEntries 0 program.statements }).symbols
  code : b.memory = a.memory ∧ b.records = a.records
  entry : ∃ l index, b.symbols.get? settings.entryLabel = some ⟨l, .label index⟩ ∧ b.entryPoint = some index

theorem resolve_leads (settings : AssemblySettings) (program : Program) (a : Assembly) :
    Leads (resolve settings program) a
      (fun answer b => Steps a b ∧ a.errors ≤ b.errors ∧ (answer = true → Resolved settings program a b))
      (fun _ b => Steps a b) := by
  refine Leads.of_bind (bindLabels_leads 0 [] program.statements a) ?_ fun _ _ h => h
  rintro count b ⟨hsteps, herrors, hclean⟩
  apply Leads.of_get
  split
  · rename_i l index hentry
    apply Leads.of_modify_bind
    apply Leads.of_get
    refine Leads.of_bind (note_leads _ _) ?_ fun _ _ h => h.elim
    intro _ c hc
    have herrors' : c.errors = b.errors := hc.errors
    refine Leads.of_get (Leads.of_pure ⟨?_, by omega, fun hanswer => ?_⟩)
    · exact hsteps.trans (Steps.of_code hc.symbols hc.memory hc.records)
    · have hzero : c.errors = 0 := errors_eq_zero_iff.1 (by simpa using hanswer)
      obtain ⟨-, hb⟩ := hclean (by omega)
      refine ⟨⟨by omega, hzero⟩, ?_, ⟨?_, ?_⟩, l, index, ?_, hc.entryPoint⟩
      · rw [hc.symbols, hb]
      · rw [hc.memory, hb]
        simp
      · rw [hc.records, hb]
        simp
      · rw [hc.symbols]
        exact hentry
  · refine Leads.of_bind (missingEntry_leads settings.entryLabel b) ?_
      fun _ _ h => hsteps.trans (Steps.of_journal h.1)
    rintro _ c ⟨hc, hgrown⟩
    have hlt : b.errors < c.errors := errors_lt_of_grown rfl hgrown
    exact Leads.of_pure ⟨hsteps.trans (Steps.of_journal hc), by omega, by simp⟩

/-! ## Second pass -/

/-- Every statement in turn has its effect. -/
inductive Processed (env : Surroundings) : Assembly → List Statement → Assembly → Prop
  | nil (a) : Processed env a [] a
  | cons {a b c s g rest} : Effect env a s g → Quiet (a.grow g) b → Processed env b rest c →
      Processed env a (s :: rest) c

section

variable {step : Attempt Unit} {fault : Fault} {a b : Assembly}

theorem attempt_of_ok (h : step a = .ok () b) : attempt step a = .ok () b := by
  simp only [attempt, h]

theorem attempt_of_fatal (h : step a = .error (.fault fault) b) (hfatal : fault.isFatal = true) :
    attempt step a = .error (.fatal fault) b := by
  simp only [attempt, h, hfatal, if_true]

theorem attempt_of_fault (h : step a = .error (.fault fault) b) (hfatal : fault.isFatal = false) :
    attempt step a = reporting (Journal.report fault) b := by
  simp only [attempt, h, hfatal, Bool.false_eq_true, if_false]

theorem attempt_of_search {e : SearchError} (h : step a = .error (.search e) b) :
    attempt step a = .error (.search e) b := by
  simp only [attempt, h]

/-- A step that succeeds is kept; a fault is reported, or it stops the pass, and a search that is cut short stops it as
well. -/
theorem attempt_leads {ok : Assembly → Prop} {stops : Obstacle → Assembly → Prop}
    (h : Leads step a (fun _ b => ok b) stops) :
    Leads (attempt step) a
      (fun _ c => ok c ∨ ∃ fault b, stops (.fault fault) b ∧ fault.isFatal = false ∧
        c = { b with journal := c.journal } ∧ Grown [.fault fault] b.journal.diagnostics c.journal.diagnostics)
      (fun e c => (∃ fault b, stops (.fault fault) b ∧ c = { b with journal := c.journal } ∧
          Last (· = .fault fault) (· = .fatal fault) b.journal.diagnostics c.journal.diagnostics e) ∨
        ∃ e', e = .search e' ∧ stops (.search e') c) := by
  cases hs : step a with
  | ok x b => exact Leads.of_ok (attempt_of_ok hs) (.inl (h.at_ok hs))
  | error obstacle b =>
    have hb : stops obstacle b := h.at_error hs
    cases obstacle with
    | fault fault =>
      by_cases hfatal : fault.isFatal = true
      · have hlast : Last (· = .fault fault) (· = .fatal fault) b.journal.diagnostics b.journal.diagnostics
            (.fatal fault) := ⟨rfl, hfatal, rfl, rfl⟩
        exact Leads.of_error (attempt_of_fatal hs hfatal) (.inl ⟨fault, b, hb, rfl, hlast⟩)
      · rw [Bool.not_eq_true] at hfatal
        refine Leads.of_eq (attempt_of_fault hs hfatal) ((report_leads fault b).mono ?_ ?_)
        · exact fun _ c h => .inr ⟨fault, b, hb, hfatal, h⟩
        · exact fun e c h => .inl ⟨fault, b, hb, h.1, h.2.mono (fun _ h => h) fun _ h => h.elim⟩
    | search e => exact Leads.of_error (attempt_of_search hs) (.inr ⟨e, rfl, hb⟩)

end

/-- How the second pass ends, told from where it started. -/
def Generated (env : Surroundings) (ss : List Statement) (a b : Assembly) : Prop :=
  Steps a b ∧ a.errors ≤ b.errors ∧ (b.errors = a.errors → Processed env a ss b)

theorem Step.of_effect {env : Surroundings} {s : Statement} {g : Growth} {a b : Assembly}
    (h : Effect env a s g) (hb : Quiet (a.grow g) b) : Step a b :=
  .of_grow h.fits hb.eq

theorem Fails.steps {s : Statement} {fault : Fault} {a b c : Assembly} (h : Fails a s fault b)
    (hc : c = { b with journal := c.journal }) : Steps a c := by
  obtain ⟨g, hg, hb⟩ := h
  exact .head (.of_grow hg.fits hb.eq) (Steps.of_journal hc)

theorem Fails.errors {s : Statement} {fault : Fault} {a b : Assembly} (h : Fails a s fault b) :
    b.errors = a.errors := by
  obtain ⟨g, -, hb⟩ := h
  exact hb.errors

theorem processAll_leads (env : Surroundings) (pending : Pending) (ss : List Statement) (a : Assembly) :
    Leads (processAll env pending ss) a (fun _ b => Generated env ss a b) (fun _ b => Steps a b) := by
  induction ss generalizing a with
  | nil => exact Leads.of_pure ⟨.refl, Nat.le_refl _, fun _ => .nil a⟩
  | cons s rest ih =>
    refine Leads.of_bind (attempt_leads (process_leads env pending s a)) ?_ ?_
    · rintro _ b (⟨g, hg, hb⟩ | ⟨fault, b', hfails, -, hb, hgrown⟩)
      · refine (ih b).mono ?_ fun _ _ h => .head (.of_effect hg hb) h
        rintro _ c ⟨hsteps, herrors, hclean⟩
        have hsame : b.errors = a.errors := hb.errors
        exact ⟨.head (.of_effect hg hb) hsteps, by omega, fun h => .cons hg hb (hclean (by omega))⟩
      · have hsame : b'.errors = a.errors := Fails.errors hfails
        have hlt : b'.errors < b.errors := errors_lt_of_grown rfl hgrown
        have hstep : Steps a b := Fails.steps hfails hb
        refine (ih b).mono ?_ fun _ _ h => hstep.trans h
        rintro _ c ⟨hsteps, herrors, -⟩
        exact ⟨hstep.trans hsteps, by omega, by omega⟩
    · rintro _ b (⟨fault, b', hfails, hb, -⟩ | ⟨e, -, rfl, -⟩)
      · exact Fails.steps hfails hb
      · exact .refl

/-- What the second pass has done when there is an image: every statement has had its effect, no error is known, and the
image shows the state. -/
structure Imaged (env : Surroundings) (ss : List Statement) (a b : Assembly) (image : Image) : Prop where
  processed : ∃ last, Processed env a ss last ∧ Quiet last b
  errors : a.errors = 0
  image_eq : image = { memory := b.memory, records := b.records, entryPoint := b.entryPoint.getD 0 }

def conclude : Assembling (Option Image) := do
  let a ← get
  if a.journal.diagnostics.happened then pure none
  else
    reporting (Journal.note (.generated a.records.length a.memory.length))
    pure (some
      { memory := a.memory, records := a.records, entryPoint := a.entryPoint.getD 0 })

theorem generate_eq (settings : AssemblySettings) (program : Program) :
    generate settings program =
      processAll settings.surroundings (declarations program.statements) program.statements >>= fun _ => conclude :=
  rfl

theorem conclude_leads (a : Assembly) :
    Leads conclude a
      (fun answer b => Quiet a b ∧ ∀ image, answer = some image → a.errors = 0 ∧
        image = { memory := b.memory, records := b.records, entryPoint := b.entryPoint.getD 0 })
      (fun _ _ => False) := by
  apply Leads.of_get
  by_cases hhappened : a.journal.diagnostics.happened = true
  · rw [if_pos hhappened]
    exact Leads.of_pure ⟨.refl a, by simp⟩
  · rw [if_neg hhappened]
    refine Leads.of_bind (note_leads _ a) ?_ fun _ _ h => h
    intro _ b hb
    refine Leads.of_pure ⟨hb, ?_⟩
    rintro image ⟨⟩
    refine ⟨errors_eq_zero_iff.1 (by simpa using hhappened), ?_⟩
    rw [hb.memory, hb.records, hb.entryPoint]

theorem generate_leads (settings : AssemblySettings) (program : Program) (a : Assembly) :
    Leads (generate settings program) a
      (fun answer b => Steps a b ∧ ∀ image, answer = some image →
        Imaged settings.surroundings program.statements a b image)
      (fun _ b => Steps a b) := by
  rw [generate_eq]
  refine Leads.of_bind (processAll_leads settings.surroundings _ program.statements a) ?_ fun _ _ h => h
  rintro _ b ⟨hsteps, herrors, hclean⟩
  refine (conclude_leads b).mono ?_ fun _ _ h => h.elim
  rintro answer c ⟨hc, himage⟩
  refine ⟨hsteps.trans (Steps.of_quiet hc), fun image hanswer => ?_⟩
  obtain ⟨hzero, heq⟩ := himage image hanswer
  exact ⟨⟨b, hclean (by omega), hc⟩, by omega, heq⟩

/-- Both passes: however they end, the assembly has gone through steps, and if there is an image, the first pass has
bound all labels and the second has carried out all statements. -/
theorem compile_leads (settings : AssemblySettings) (program : Program) (a : Assembly) :
    Leads (compile settings program) a
      (fun answer c => Steps a c ∧ ∀ image, answer = some image → ∃ b, Resolved settings program a b ∧
        Imaged settings.surroundings program.statements b c image)
      (fun _ c => Steps a c) := by
  refine Leads.of_bind (resolve_leads settings program a) ?_ fun _ _ h => h
  rintro answer b ⟨hsteps, -, hresolved⟩
  cases answer with
  | false => exact Leads.of_pure ⟨hsteps, by simp⟩
  | true =>
    refine (generate_leads settings program b).mono ?_ fun _ _ h => hsteps.trans h
    rintro answer c ⟨hsteps', himage⟩
    exact ⟨hsteps.trans hsteps', fun image h => ⟨b, hresolved rfl, himage image h⟩⟩

/-- The answer of the first pass is that no error is known. -/
theorem resolve_answer (settings : AssemblySettings) (program : Program) (a : Assembly) :
    Leads (resolve settings program) a (fun answer b => answer = !b.journal.diagnostics.happened)
      (fun _ _ => True) := by
  refine Leads.of_bind (bindLabels_leads 0 [] program.statements a) ?_ fun _ _ _ => trivial
  rintro count b -
  apply Leads.of_get
  split
  · apply Leads.of_modify_bind
    apply Leads.of_get
    refine Leads.of_bind (note_leads _ _) ?_ fun _ _ h => h.elim
    exact fun _ c _ => Leads.of_get (Leads.of_pure rfl)
  · refine Leads.of_bind (missingEntry_leads settings.entryLabel b) ?_ fun _ _ _ => trivial
    rintro _ c ⟨-, hgrown⟩
    have hlt : b.errors < c.errors := errors_lt_of_grown rfl hgrown
    have hhappened : c.journal.diagnostics.happened = true := decide_eq_true (Nat.zero_lt_of_lt hlt)
    exact Leads.of_pure (by rw [hhappened]; rfl)

theorem compile_answer (settings : AssemblySettings) (program : Program) (a : Assembly) :
    Leads (compile settings program) a (fun answer b => answer.isSome = !b.journal.diagnostics.happened)
      (fun _ _ => True) := by
  refine Leads.of_bind (resolve_answer settings program a) ?_ fun _ _ _ => trivial
  rintro answer b hanswer
  cases answer with
  | false => exact Leads.of_pure hanswer
  | true =>
    simp only [if_true]
    rw [generate_eq]
    refine Leads.of_bind (processAll_leads settings.surroundings _ program.statements b) ?_ fun _ _ _ => trivial
    rintro _ c -
    apply Leads.of_get
    by_cases hhappened : c.journal.diagnostics.happened = true
    · rw [if_pos hhappened]
      exact Leads.of_pure (by rw [hhappened]; rfl)
    · rw [if_neg hhappened]
      refine Leads.of_ok_bind (note_eq _ c) (Leads.of_pure ?_)
      simpa using hhappened

end Assembly

end AvmAssembler
