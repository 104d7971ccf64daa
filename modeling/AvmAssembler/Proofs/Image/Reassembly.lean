import AvmAssembler.Proofs.Assembly.Indexing
import AvmAssembler.Proofs.Assembly.Literal
import AvmAssembler.Proofs.Files.Naming
import AvmAssembler.Proofs.Image.Listing
import AvmAssembler.Proofs.Runs
import AvmAssembler.Proofs.Source.Completeness

/-! # Listings assembled again

The listing of an image is assembled without any diagnostic. The image that comes out has the same memory and the same
instructions; what a listing cannot show is lost: records of unknown opcodes, arguments of instructions that take none,
and the version.
-/

namespace AvmAssembler

/-- The record of an instruction, with zero for an argument that its mnemonic does not take. -/
def Record.normalForm? (r : Record) : Option Record :=
  (InstructionSet.byOpcode? r.opcode).map fun m => ⟨r.opcode, if m.takesArgument then r.argument else 0⟩

def Record.isKnown (r : Record) : Bool := (InstructionSet.byOpcode? r.opcode).isSome

namespace Image

/-- What a listing shows of an image. The entry point counts the known records before it. -/
def normalForm (image : Image) : Image where
  memory := image.memory
  records := image.records.filterMap Record.normalForm?
  entryPoint := ((image.records.take image.entryPoint.toNat).countP Record.isKnown : Nat)
  version := .current

/-! ## Statements of a listing -/

def instructions (records : List Record) : List Statement :=
  records.flatMap fun r => ListedRecord.statements ⟨0, r, InstructionSet.byOpcode? r.opcode⟩

def listedFrom (i : Nat) (records : List Record) : List ListedRecord :=
  records.mapIdx fun k r => ⟨i + k, r, InstructionSet.byOpcode? r.opcode⟩

theorem listedFrom_cons (i : Nat) (r : Record) (records : List Record) :
    listedFrom i (r :: records) = ⟨i, r, InstructionSet.byOpcode? r.opcode⟩ :: listedFrom (i + 1) records := by
  simp only [listedFrom, List.mapIdx_cons, Nat.add_zero]
  congr 2
  funext k r
  rw [Nat.add_comm k 1, Nat.add_assoc]

theorem recordStatements_behind {i : Nat} {entry : Int} (h : entry < i) (records : List Record) :
    (listedFrom i records).flatMap (recordStatements entry) = instructions records := by
  induction records generalizing i with
  | nil => rfl
  | cons r records ih =>
    have hne : ¬(i : Int) = entry := by omega
    rw [listedFrom_cons, List.flatMap_cons, ih (by omega)]
    simp only [recordStatements, hne, if_false, List.nil_append]
    rfl

/-- The entry label stands before the record of the entry point, or behind all records. -/
theorem recordStatements_split {i entry : Nat} (h : i ≤ entry) (records : List Record) :
    (listedFrom i records).flatMap (recordStatements entry) ++
        (if ((i + records.length : Nat) : Int) ≤ entry then [.label none entryLabel] else []) =
      instructions (records.take (entry - i)) ++ .label none entryLabel :: instructions (records.drop (entry - i)) := by
  induction records generalizing i with
  | nil =>
    have hlast : ((i + 0 : Nat) : Int) ≤ entry := by omega
    simp [listedFrom, instructions, h]
  | cons r records ih =>
    rw [listedFrom_cons, List.flatMap_cons]
    rcases Nat.lt_or_eq_of_le h with hlt | rfl
    · have hne : ¬(i : Int) = entry := by omega
      have hlength : i + (r :: records).length = i + 1 + records.length := by
        rw [List.length_cons]
        omega
      have hsplit : entry - i = entry - (i + 1) + 1 := by omega
      rw [List.append_assoc, hlength, ih hlt, hsplit, List.take_succ_cons, List.drop_succ_cons]
      simp only [recordStatements, hne, if_false, List.nil_append, instructions, List.flatMap_cons]
      rw [List.append_assoc]
      rfl
    · have hlast : ¬((i + (r :: records).length : Nat) : Int) ≤ i := by
        rw [List.length_cons]
        omega
      rw [if_neg hlast, recordStatements_behind (by omega), List.append_nil, Nat.sub_self]
      simp [recordStatements, instructions]
      rfl

theorem statements_eq (image : Image) {e : Nat} (he : image.entryPoint = e) :
    image.statements = memoryStatements image.memory ++
      (instructions (image.records.take e) ++ .label none entryLabel :: instructions (image.records.drop e)) := by
  have hsplit := recordStatements_split (Nat.zero_le e) image.records
  rw [Nat.zero_add, Nat.sub_zero] at hsplit
  have hlisted : image.listedRecords = listedFrom 0 image.records := by simp [listedRecords, listedFrom]
  rw [statements, hlisted, he, List.append_assoc, hsplit]

/-! ## Instructions -/

theorem instructions_cons_known {r : Record} {m : Mnemonic} (hm : InstructionSet.byOpcode? r.opcode = some m)
    (records : List Record) :
    instructions (r :: records) =
      .instruction none m.name (if m.takesArgument then some (.integer none r.argument) else none) ::
        instructions records := by
  simp [instructions, ListedRecord.statements, hm]

theorem instructions_cons_unknown {r : Record} (hm : InstructionSet.byOpcode? r.opcode = none)
    (records : List Record) : instructions (r :: records) = instructions records := by
  simp [instructions, ListedRecord.statements, hm]

theorem literalRecord?_known {r : Record} {m : Mnemonic} (hm : InstructionSet.byOpcode? r.opcode = some m)
    (hfits : r.Fits) :
    (Statement.instruction none m.name
      (if m.takesArgument then some (.integer none r.argument) else none)).literalRecord? = r.normalForm? := by
  have hname := byName?_of_byOpcode? hm
  have hopcode := InstructionSet.byOpcode?_opcode hm
  have hword : (Word.ofInt r.argument : Int) = r.argument := by
    obtain ⟨n, hn⟩ := Int.eq_ofNat_of_zero_le hfits.argument.1
    have hlt : n < Word.modulus := by
      have hbound := hfits.argument.2
      omega
    rw [hn, Word.ofInt_natCast, Nat.mod_eq_of_lt hlt]
  cases harity : m.takesArgument <;>
    simp [Statement.literalRecord?, Record.normalForm?, hm, hname, harity, hopcode, hword]

/-- The instructions of a listing are literal. -/
theorem instructions_literal {records : List Record} (hfits : ∀ r ∈ records, r.Fits) :
    (∀ s ∈ instructions records, s.literalRecord?.isSome = true) ∧
      (instructions records).filterMap Statement.literalRecord? = records.filterMap Record.normalForm? := by
  induction records with
  | nil => exact ⟨by simp [instructions], rfl⟩
  | cons r records ih =>
    obtain ⟨hliteral, hrecords⟩ := ih fun r' hr' => hfits r' (List.mem_cons_of_mem r hr')
    cases hm : InstructionSet.byOpcode? r.opcode with
    | none =>
      have hnormal : r.normalForm? = none := by simp [Record.normalForm?, hm]
      rw [instructions_cons_unknown hm, List.filterMap_cons_none hnormal]
      exact ⟨hliteral, hrecords⟩
    | some m =>
      have hrecord := literalRecord?_known hm (hfits r (by simp))
      have hsome : r.normalForm? = some ⟨r.opcode, if m.takesArgument then r.argument else 0⟩ := by
        simp [Record.normalForm?, hm]
      rw [instructions_cons_known hm, List.filterMap_cons_some (hrecord.trans hsome), hrecords,
        List.filterMap_cons_some hsome]
      refine ⟨fun s hs => ?_, rfl⟩
      rcases List.mem_cons.1 hs with rfl | hs
      · rw [hrecord, hsome]
        rfl
      · exact hliteral s hs

/-- The instructions of a listing bind no names, and there is one for each known record. -/
theorem instructions_names (records : List Record) :
    (instructions records).filterMap Statement.labelName? = [] ∧
      (instructions records).filterMap Statement.lateName? = [] ∧
      (instructions records).countP Statement.isInstruction = records.countP Record.isKnown := by
  induction records with
  | nil => exact ⟨rfl, rfl, rfl⟩
  | cons r records ih =>
    obtain ⟨hlabels, hlate, hcount⟩ := ih
    cases hm : InstructionSet.byOpcode? r.opcode with
    | none =>
      have hunknown : ¬r.isKnown = true := by simp [Record.isKnown, hm]
      rw [instructions_cons_unknown hm, List.countP_cons_of_neg hunknown]
      exact ⟨hlabels, hlate, hcount⟩
    | some m =>
      have hknown : r.isKnown = true := by simp [Record.isKnown, hm]
      rw [instructions_cons_known hm, List.countP_cons_of_pos hknown, List.countP_cons_of_pos rfl, hcount,
        List.filterMap_cons_none rfl, List.filterMap_cons_none rfl]
      exact ⟨hlabels, hlate, rfl⟩

/-! ## Assembling a listing -/

theorem memoryStatements_names (memory : List UInt8) :
    (memoryStatements memory).filterMap Statement.labelName? = [] ∧
      (∀ n ∈ (memoryStatements memory).filterMap Statement.lateName?, n = "memory") ∧
      (memoryStatements memory).countP Statement.isInstruction = 0 := by
  unfold memoryStatements
  split
  · exact ⟨rfl, by simp, rfl⟩
  · refine ⟨rfl, ?_, rfl⟩
    intro n hn
    exact List.mem_singleton.1 hn

theorem unlocatedAll_bytes (bytes : List UInt8) :
    Expr.unlocatedAll (bytes.map fun b => .integer none b.toNat) = bytes.map fun b => .integer none b.toNat := by
  induction bytes with
  | nil => rfl
  | cons b bytes ih =>
    rw [List.map_cons, Expr.unlocatedAll, ih]
    rfl

/-- The memory of a listing is appended as it is, whatever the places of its statements. -/
theorem processAll_memory {env : Surroundings} {pending : Pending} {memory : List UInt8} {ss : List Statement}
    (h : ss.map Statement.unlocated = (memoryStatements memory).map Statement.unlocated) {a : Assembly}
    (hfree : a.symbols.get? "memory" = none) :
    ∃ entries, Assembly.processAll env pending ss a = .ok () (a.grow { entries := entries, bytes := memory }) := by
  unfold memoryStatements at h
  split at h
  · rename_i hempty
    obtain rfl : memory = [] := List.isEmpty_iff.1 hempty
    obtain rfl : ss = [] := List.map_eq_nil_iff.1 h
    refine ⟨[], ?_⟩
    rw [Assembly.grow_nothing]
    rfl
  · obtain ⟨s, rfl, hs⟩ := List.map_eq_singleton_iff.1 h
    cases s with
    | region l name type es =>
      obtain ⟨-, rfl, rfl, hes⟩ := Statement.region.inj hs
      have hprocess := @Assembly.process_bytes env pending l "memory" es memory (hes.trans (unlocatedAll_bytes memory)) a hfree
      refine ⟨[("memory", ⟨l, .region a.memory.length memory.length⟩)], ?_⟩
      rw [Assembly.processAll, bind_of_ok (Assembly.attempt_of_ok hprocess)]
      rfl
    | _ => cases hs

theorem isSome_of_unlocated {ss others : List Statement}
    (h : ss.map Statement.unlocated = others.map Statement.unlocated)
    (hothers : ∀ s ∈ others, s.literalRecord?.isSome = true) : ∀ s ∈ ss, s.literalRecord?.isSome = true := by
  intro s hs
  have hmem : s.unlocated ∈ others.map Statement.unlocated := h ▸ List.mem_map_of_mem hs
  obtain ⟨t, ht, heq⟩ := List.mem_map.1 hmem
  rw [← Statement.literalRecord?_unlocated, ← heq, Statement.literalRecord?_unlocated]
  exact hothers t ht

/-- A program that is a listing up to places: the memory, the code before the entry label, and the code behind it. -/
structure Listed (image : Image) (ss memory before : List Statement) (l : Option Location) (behind : List Statement) :
    Prop where
  statements : ss = memory ++ (before ++ .label l entryLabel :: behind)
  memory_eq : memory.map Statement.unlocated = (memoryStatements image.memory).map Statement.unlocated
  before_eq : before.map Statement.unlocated =
    (instructions (image.records.take image.entryPoint.toNat)).map Statement.unlocated
  behind_eq : behind.map Statement.unlocated =
    (instructions (image.records.drop image.entryPoint.toNat)).map Statement.unlocated

theorem exists_listed {image : Image} (hentry : 0 ≤ image.entryPoint) {ss : List Statement}
    (h : ss.map Statement.unlocated = image.statements.map Statement.unlocated) :
    ∃ memory before l behind, Listed image ss memory before l behind := by
  have hpoint : image.entryPoint = image.entryPoint.toNat := (Int.toNat_of_nonneg hentry).symm
  rw [statements_eq image hpoint, List.map_append, List.map_append, List.map_cons] at h
  obtain ⟨memory, code, rfl, hmemory, hcode⟩ := List.map_eq_append_iff.1 h
  obtain ⟨before, rest, rfl, hbefore, hrest⟩ := List.map_eq_append_iff.1 hcode
  obtain ⟨label, behind, rfl, hlabel, hbehind⟩ := List.map_eq_cons_iff.1 hrest
  cases label with
  | label l name =>
    obtain ⟨-, rfl⟩ := Statement.label.inj hlabel
    exact ⟨memory, before, l, behind, rfl, hmemory, hbefore, hbehind⟩
  | _ => cases hlabel

namespace Listed

variable {image : Image} {ss memory before behind : List Statement} {l : Option Location}

/-- What does not depend on places is read off the statements of the listing. -/
theorem filterMap_eq (h : Listed image ss memory before l behind) {α : Type} {f : Statement → Option α}
    (hf : ∀ s, f s.unlocated = f s) :
    ss.filterMap f = (memoryStatements image.memory).filterMap f ++
      ((instructions (image.records.take image.entryPoint.toNat)).filterMap f ++
        (Statement.label none entryLabel :: instructions (image.records.drop image.entryPoint.toNat)).filterMap f) := by
  have hlabel : (Statement.label l entryLabel :: behind).map Statement.unlocated =
      (Statement.label none entryLabel :: instructions (image.records.drop image.entryPoint.toNat)).map
        Statement.unlocated := by
    rw [List.map_cons, List.map_cons, h.behind_eq]
    rfl
  rw [h.statements, List.filterMap_append, List.filterMap_append, Statement.filterMap_eq_of_unlocated hf h.memory_eq,
    Statement.filterMap_eq_of_unlocated hf h.before_eq, Statement.filterMap_eq_of_unlocated hf hlabel]

theorem labelNames (h : Listed image ss memory before l behind) :
    ss.filterMap Statement.labelName? = [entryLabel] := by
  rw [h.filterMap_eq Statement.labelName?_unlocated, (memoryStatements_names _).1, (instructions_names _).1]
  exact congrArg (List.cons entryLabel) (instructions_names _).1

theorem lateNames (h : Listed image ss memory before l behind) :
    ∀ n ∈ ss.filterMap Statement.lateName?, n = "memory" := by
  have hbehind : (Statement.label none entryLabel ::
      instructions (image.records.drop image.entryPoint.toNat)).filterMap Statement.lateName? = [] :=
    (instructions_names _).2.1
  rw [h.filterMap_eq Statement.lateName?_unlocated, hbehind, (instructions_names _).2.1]
  simpa using (memoryStatements_names image.memory).2.1

/-- The entry label stands behind the known records before the entry point. -/
theorem countP_before (h : Listed image ss memory before l behind) :
    (memory ++ before).countP Statement.isInstruction =
      (image.records.take image.entryPoint.toNat).countP Record.isKnown := by
  rw [List.countP_append, ← Statement.countP_isInstruction_unlocated memory, h.memory_eq,
    ← Statement.countP_isInstruction_unlocated before, h.before_eq, Statement.countP_isInstruction_unlocated,
    Statement.countP_isInstruction_unlocated, (memoryStatements_names _).2.2, (instructions_names _).2.2, Nat.zero_add]

theorem instructions_eq (h : Listed image ss memory before l behind) (hfits : ∀ r ∈ image.records, r.Fits) :
    (∀ s ∈ before ++ .label l entryLabel :: behind, s.labelName?.isSome = true ∨ s.literalRecord?.isSome = true) ∧
      (before ++ .label l entryLabel :: behind).filterMap Statement.literalRecord? =
        image.records.filterMap Record.normalForm? := by
  have hsplit := List.take_append_drop image.entryPoint.toNat image.records
  obtain ⟨hliteral, hrecords⟩ := instructions_literal
    fun r hr => hfits r (List.mem_of_mem_take (i := image.entryPoint.toNat) hr)
  obtain ⟨hliteral', hrecords'⟩ := instructions_literal
    fun r hr => hfits r (List.mem_of_mem_drop (i := image.entryPoint.toNat) hr)
  constructor
  · intro s hs
    rcases List.mem_append.1 hs with hs | hs
    · exact .inr (isSome_of_unlocated h.before_eq hliteral s hs)
    · rcases List.mem_cons.1 hs with rfl | hs
      · exact .inl rfl
      · exact .inr (isSome_of_unlocated h.behind_eq hliteral' s hs)
  · have hbefore := Statement.filterMap_eq_of_unlocated Statement.literalRecord?_unlocated h.before_eq
    have hbehind := Statement.filterMap_eq_of_unlocated Statement.literalRecord?_unlocated h.behind_eq
    rw [List.filterMap_append, List.filterMap_cons_none rfl, hbefore, hbehind, hrecords, hrecords',
      ← List.filterMap_append, hsplit]

/-- The first pass over a listing binds the entry label and nothing else. -/
theorem resolve_eq {settings : AssemblySettings} (hlabel : settings.entryLabel = entryLabel) {program : Program}
    (h : Listed image program.statements memory before l behind) {j : Journal}
    (hclean : j.diagnostics.happened = false) :
    ∃ a, Assembly.resolve settings program { journal := j } = .ok true a ∧
      a.symbols.names = [entryLabel] ∧ a.memory = [] ∧ a.records = [] ∧
      a.entryPoint = some ((image.records.take image.entryPoint.toNat).countP Record.isKnown : Nat) ∧
      a.journal.diagnostics = j.diagnostics := by
  have hlabels := h.labelNames
  let labels := Assembly.labelEntries 0 program.statements
  have hnames : labels.map Prod.fst = [entryLabel] := (Assembly.labelEntries_names 0 _).trans hlabels
  have hlate : entryLabel ∉ program.statements.filterMap Statement.lateName? := fun hmem =>
    absurd (h.lateNames entryLabel hmem) (by decide)
  have hbind : Assembly.bindLabels 0 [] program.statements { journal := j } =
      .ok (0 + program.statements.countP Statement.isInstruction)
        (Assembly.grow { journal := j } { entries := labels }) := by
    apply Assembly.bindLabels_of_distinct
    · simp [hlabels]
    · simpa [hlabels] using hlate
    · exact fun _ _ => rfl
    · exact fun _ _ => rfl
  have hget : (Assembly.grow { journal := j } { entries := labels }).symbols.get? settings.entryLabel =
      some ⟨l, .label ((image.records.take image.entryPoint.toNat).countP Record.isKnown : Nat)⟩ := by
    apply SymbolTable.get?_of_mem_entries
    · simp [SymbolTable.names, hnames]
    · rw [hlabel, ← h.countP_before]
      simp only [labels, h.statements, ← List.append_assoc, Assembly.grow_entries, Assembly.labelEntries_append]
      simp [Assembly.labelEntries]
  exact ⟨_, Assembly.resolve_of_bindLabels hbind hget hclean, hnames, rfl, rfl, rfl, rfl⟩

/-- The second pass over a listing that has found its labels. -/
theorem generate_eq {settings : AssemblySettings} {program : Program}
    (h : Listed image program.statements memory before l behind) (hfits : ∀ r ∈ image.records, r.Fits) {a : Assembly}
    (hfree : a.symbols.get? "memory" = none) (hmemory : a.memory = []) (hrecords : a.records = [])
    (hclean : a.journal.diagnostics.happened = false) :
    ∃ b, Assembly.generate settings program a =
        .ok (some ⟨image.memory, image.records.filterMap Record.normalForm?, a.entryPoint.getD 0, .current⟩) b ∧
      b.journal.diagnostics = a.journal.diagnostics := by
  let pending := Assembly.declarations program.statements
  obtain ⟨hliteral, hall⟩ := h.instructions_eq hfits
  obtain ⟨entries, hregion⟩ : ∃ entries, Assembly.processAll settings.surroundings pending memory a =
      .ok () (a.grow { entries := entries, bytes := image.memory }) := processAll_memory h.memory_eq hfree
  let last := (a.grow { entries := entries, bytes := image.memory }).grow
    { records := image.records.filterMap Record.normalForm? }
  have hprocess : Assembly.processAll settings.surroundings pending program.statements a = .ok () last := by
    rw [h.statements, Assembly.Call.processAll_append hregion, Assembly.processAll_literal hliteral, hall]
  have hgenerate : Assembly.generate settings program a = Assembly.conclude last := by
    rw [Assembly.generate_eq, bind_of_ok hprocess]
  have hlast : last.memory = image.memory ∧ last.records = image.records.filterMap Record.normalForm? := by
    simp [last, hmemory, hrecords]
  have hconclude := Assembly.conclude_of_clean (a := last) hclean
  rw [hlast.1, hlast.2] at hconclude
  exact ⟨_, hgenerate.trans hconclude, rfl⟩

end Listed

/-- A listing that is read with any places is compiled to the normal form of its image, and no diagnostic is recorded. -/
theorem compile_statements {settings : AssemblySettings} (hlabel : settings.entryLabel = entryLabel) {image : Image}
    (hentry : 0 ≤ image.entryPoint) (hfits : ∀ r ∈ image.records, r.Fits) {program : Program}
    (h : program.statements.map Statement.unlocated = image.statements.map Statement.unlocated) {j : Journal}
    (hclean : j.diagnostics.happened = false) :
    ∃ a, Assembly.compile settings program { journal := j } = .ok (some image.normalForm) a ∧
      a.journal.diagnostics = j.diagnostics := by
  obtain ⟨memory, before, l, behind, hlisted⟩ := exists_listed hentry h
  obtain ⟨a, hresolve, hnames, hmemory, hrecords, hpoint, hquiet⟩ := hlisted.resolve_eq hlabel hclean
  have hfree : a.symbols.get? "memory" = none := by
    rw [SymbolTable.get?_eq_none_iff, hnames]
    decide
  rw [← hquiet] at hclean
  obtain ⟨b, hgenerate, hquiet'⟩ := hlisted.generate_eq hfits hfree hmemory hrecords hclean
  rw [hpoint] at hgenerate
  refine ⟨b, ?_, hquiet'.trans hquiet⟩
  rw [Assembly.compile, bind_of_ok hresolve]
  exact hgenerate

end Image

namespace Session

variable {s : Session} {source path : String} {program : Program} {image : Image} {j : Journal} {a : Assembly}

/-- A source that is read without errors and compiled to an image is assembled to this image. -/
theorem assembleText_of_compile
    (hread : Program.read s.surroundings path source
      ⟨s.journal.diagnostics.reset, s.journal.log ++ [.assembling path]⟩ = .ok program j)
    (hclean : j.diagnostics.happened = false)
    (hcompile : Assembly.compile s.assemblySettings program
      { journal := { j with log := j.log ++ [.expanded path program.instructionCount] } } = .ok (some image) a) :
    ∃ s', assembleText source path s = .ok (some image) s' ∧ s'.journal = a.journal := by
  let last : Session := ⟨s.settings, s.tree, a.journal, some image, some a.symbols⟩
  have hassemble : assemble source path none s = .ok true last := assemble_of_compile hread hclean hcompile none
  refine ⟨last, ?_, rfl⟩
  rw [assembleText, bind_of_ok hassemble]
  rfl

theorem assembleText_of_search {e : SearchError} (h : Unit.initiallyActive s.surroundings path = .error e) :
    ∃ s', assembleText source path s = .error (.search e) s' ∧
      s'.journal.diagnostics = s.journal.diagnostics.reset := by
  obtain ⟨s', hassemble, hdiagnostics⟩ := assemble_of_search h source none
  exact ⟨s', by rw [assembleText, bind_of_error hassemble], hdiagnostics⟩

end Session

/-- Assembling the listing of an image under a name gives the normal form of the image, and nothing is recorded. Only if
the search for a file of that name is cut short, assembling stops there, whatever the listing. -/
theorem Session.assembleText_listing {s : Session} (hlabel : s.settings.entryLabel = Image.entryLabel) {image : Image}
    (hentry : 0 ≤ image.entryPoint) (hfits : ∀ r ∈ image.records, r.Fits) {indent : String}
    (hindent : ∀ c ∈ indent.toList, Lexeme.isBlank c = true) {name : Option String}
    (hname : ∀ n ∈ name, '\n' ∉ n.toList) (path : String) :
    (Unit.CanStart s.surroundings path →
      ∃ s', Session.assembleText (image.listing indent name) path s = .ok (some image.normalForm) s' ∧
        s'.journal.diagnostics = s.journal.diagnostics.reset) ∧
    ∀ e, Unit.initiallyActive s.surroundings path = .error e →
      ∃ s', Session.assembleText (image.listing indent name) path s = .error (.search e) s' ∧
        s'.journal.diagnostics = s.journal.diagnostics.reset := by
  refine ⟨fun hstart => ?_, fun e he => Session.assembleText_of_search he⟩
  obtain ⟨ts, htext, hyields⟩ := image.listing_spells hindent hname hfits
  obtain ⟨ss, hsame, hread⟩ := Program.read_of_yieldAll hstart htext hyields
  let start : Journal := ⟨s.journal.diagnostics.reset, s.journal.log ++ [.assembling path]⟩
  let read : Journal := ⟨start.diagnostics, start.log ++ [.parsing path, .parsed ss.length path]⟩
  let expanded : Journal := { read with log := read.log ++ [.expanded path (Program.instructionCount ⟨ss, path⟩)] }
  have hclean : expanded.diagnostics.happened = false := rfl
  obtain ⟨a, hcompile, hdiagnostics⟩ : ∃ a, Assembly.compile s.assemblySettings ⟨ss, path⟩ { journal := expanded } =
      .ok (some image.normalForm) a ∧ a.journal.diagnostics = expanded.diagnostics :=
    Image.compile_statements hlabel hentry hfits hsame hclean
  obtain ⟨s', hassemble, hjournal⟩ := Session.assembleText_of_compile (hread start) hclean hcompile
  exact ⟨s', hassemble, (congrArg Journal.diagnostics hjournal).trans hdiagnostics⟩

theorem Session.assembleText_listing_unknown :
    let image : Image := ⟨[0, 255], [⟨0x10, 2 ^ 64 - 1⟩, ⟨0x01, 5⟩, ⟨0x11, 7⟩], 2, ⟨0, 1, 2⟩⟩
    image.normalForm = ⟨[0, 255], [⟨0x10, 2 ^ 64 - 1⟩, ⟨0x11, 0⟩], 1, ⟨1, 13, 13⟩⟩ ∧
      ∃ s', Session.assembleText (image.listing "\t" (some "old.avm")) "new.asm" {} = .ok (some image.normalForm) s' ∧
        s'.journal.diagnostics = ({} : Session).journal.diagnostics.reset :=
  ⟨by decide, (Session.assembleText_listing rfl (by decide) (by decide) (by simp [Lexeme.isBlank]) (by decide)
    "new.asm").1 ⟨[], rfl⟩⟩

/-- A name of more letters than a file can have keeps even the listing of an image without content from being
assembled. -/
theorem Session.assembleText_listing_long_name :
    let name := String.ofList (List.replicate 300 'a')
    ∃ s', Session.assembleText (({} : Image).listing "" none) name {} =
        .error (.search ⟨Path.ofString name, .nameTooLong⟩) s' ∧ s'.journal.diagnostics.entries = [] := by
  intro name
  have hletters : ∀ c ≠ 'a', c ∉ name.toList :=
    fun c hne hc => hne (List.eq_of_mem_replicate (String.toList_ofList ▸ hc))
  have htarget : FileTree.target {} (Path.ofString name) = .blocked .nameTooLong :=
    FileTree.target_of_long_name (by decide) (hletters _ (by decide)) (hletters _ (by decide)) (by decide +kernel)
  have hname : name ≠ FileTree.inputName := fun heq => hletters '<' (by decide) (heq ▸ by decide)
  have hsearch : Unit.initiallyActive ⟨{}, []⟩ name = .error ⟨Path.ofString name, .nameTooLong⟩ :=
    Unit.initiallyActive_eq_error.2 ⟨hname, FileTree.place?_eq_error.2 ⟨rfl, htarget, .inl rfl⟩⟩
  obtain ⟨s', hassemble, hdiagnostics⟩ := Session.assembleText_of_search (s := {}) hsearch
  exact ⟨s', hassemble, congrArg Diagnostics.entries hdiagnostics⟩

end AvmAssembler
