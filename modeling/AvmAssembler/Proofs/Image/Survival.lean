import AvmAssembler.Proofs.Assembly.Inlining
import AvmAssembler.Proofs.Escapes
import AvmAssembler.Proofs.Image.Codec
import AvmAssembler.Proofs.Image.Reassembly

/-! # Assembled images survive

An image that comes out of an assembly consists of instructions alone: a record is added for an instruction of the
table, with the value of its argument or with zero, and values are words. Such an image is its own normal form and has a
binary form, so nothing of it is lost when it is encoded, decoded, listed and assembled again.
-/

namespace AvmAssembler

/-! ## Images that consist of instructions -/

/-- The record is an instruction: a mnemonic of the table with a word, which is zero if the mnemonic takes none. -/
def Record.IsInstruction (r : Record) : Prop :=
  ∃ m, InstructionSet.byOpcode? r.opcode = some m ∧ 0 ≤ r.argument ∧ r.argument < 2 ^ 64 ∧
    (m.takesArgument = false → r.argument = 0)

/-- All records are instructions, the entry point lies in the program or at its end, and the version is the current
one. -/
structure Image.Executable (image : Image) : Prop where
  records : ∀ r ∈ image.records, r.IsInstruction
  entry_nonneg : 0 ≤ image.entryPoint
  entry_le : image.entryPoint ≤ image.records.length
  version : image.version = .current

namespace InstructionSet

theorem opcode_lt {m : Mnemonic} (h : m ∈ table) : m.opcode < 256 :=
  (by decide : ∀ m ∈ table, m.opcode < 256) m h

/-- An opcode of the table is the opcode of one mnemonic only. -/
theorem byOpcode?_of_byName? {name : String} {m : Mnemonic} (h : byName? name = some m) :
    byOpcode? m.opcode = some m :=
  (by decide +kernel : ∀ m ∈ table, byOpcode? m.opcode = some m) m (List.mem_of_find?_eq_some h)

end InstructionSet

namespace Record.IsInstruction

variable {r : Record}

theorem encodable (h : r.IsInstruction) : r.Encodable := by
  obtain ⟨m, hm, hnonneg, hlt, -⟩ := h
  have hopcode := InstructionSet.byOpcode?_opcode hm
  have hbyte := InstructionSet.opcode_lt (List.mem_of_find?_eq_some hm)
  exact ⟨by omega, by omega, hnonneg, hlt⟩

theorem fits (h : r.IsInstruction) : r.Fits :=
  ⟨⟨h.encodable.opcode_nonneg, h.encodable.opcode_lt⟩, h.encodable.argument_nonneg, h.encodable.argument_lt⟩

theorem isKnown (h : r.IsInstruction) : r.isKnown = true := by
  obtain ⟨m, hm, -⟩ := h
  rw [Record.isKnown, hm, Option.isSome_some]

theorem normalForm? (h : r.IsInstruction) : r.normalForm? = some r := by
  obtain ⟨m, hm, -, -, hzero⟩ := h
  rw [Record.normalForm?, hm, Option.map_some]
  cases harity : m.takesArgument with
  | true => simp
  | false => simp [← hzero harity]

end Record.IsInstruction

namespace Image.Executable

variable {image : Image}

theorem encodable (h : image.Executable) (hrecords : image.records.length < 2 ^ 64)
    (hmemory : image.memory.length < 2 ^ 64) : image.Encodable where
  version := by
    rw [h.version]
    decide
  records r hr := (h.records r hr).encodable
  entry_nonneg := h.entry_nonneg
  entry_lt := Int.lt_of_le_of_lt h.entry_le (by exact_mod_cast hrecords)
  records_lt := hrecords
  memory_lt := hmemory

theorem normalForm_eq (h : image.Executable) : image.normalForm = image := by
  have hrecords : image.records.filterMap Record.normalForm? = image.records := by
    rw [List.filterMap_congr fun r hr => (h.records r hr).normalForm?, List.filterMap_some]
  have hentry : (((image.records.take image.entryPoint.toNat).countP Record.isKnown : Nat) : Int) =
      image.entryPoint := by
    have hknown : ∀ r ∈ image.records.take image.entryPoint.toNat, r.isKnown = true :=
      fun r hr => (h.records r (List.mem_of_mem_take hr)).isKnown
    have hle := h.entry_le
    have hnonneg := h.entry_nonneg
    rw [List.countP_eq_length.2 hknown, List.length_take]
    omega
  rw [normalForm, hrecords, hentry, ← h.version]

end Image.Executable

/-! ## Images that come out of an assembly -/

theorem SymbolTable.HasWordSizes.of_prefix {earlier later : SymbolTable} (h : later.HasWordSizes)
    (hfront : earlier.entries <+: later.entries) : earlier.HasWordSizes :=
  fun name l address size hmem => h name l address size (hfront.subset hmem)

namespace Assembly

/-- What an instruction adds is a record of it, if no region is larger than words can tell. -/
theorem Effect.isInstruction {env : Surroundings} {a : Assembly} {s : Statement} {g : Growth}
    (h : Effect env a s g) (hsizes : a.symbols.HasWordSizes) : ∀ r ∈ g.records, r.IsInstruction := by
  cases h with
  | label | constant | region | embedding => simp
  | nullary hname harity =>
    intro r hr
    obtain rfl := List.mem_singleton.1 hr
    exact ⟨_, InstructionSet.byOpcode?_of_byName? hname, Int.le_refl 0, Int.pow_pos (by decide), fun _ => rfl⟩
  | unary hname harity hword =>
    intro r hr
    obtain rfl := List.mem_singleton.1 hr
    have hvalue := Expr.value_of_word? hsizes.hasSizes hword []
    refine ⟨_, InstructionSet.byOpcode?_of_byName? hname, Int.natCast_nonneg _, Expr.value_lt hsizes hvalue, ?_⟩
    simp [harity]

theorem Processed.isInstruction {env : Surroundings} {ss : List Statement} {a c : Assembly} (h : Processed env a ss c)
    (hsizes : c.symbols.HasWordSizes) (hrecords : ∀ r ∈ a.records, r.IsInstruction) :
    ∀ r ∈ c.records, r.IsInstruction := by
  induction h with
  | nil a => exact hrecords
  | @cons a b c s g rest hg hb hrest ih =>
    refine ih hsizes ?_
    have hbefore : a.symbols.entries <+: c.symbols.entries := by
      refine List.IsPrefix.trans ?_ hrest.steps.extends.symbols
      rw [hb.symbols, grow_entries]
      exact List.prefix_append ..
    rw [hb.records, grow_records]
    intro r hr
    rcases List.mem_append.1 hr with hr | hr
    · exact hrecords r hr
    · exact hg.isInstruction (hsizes.of_prefix hbefore) r hr

/-- The entry point counts the instructions before the entry label, so it is not behind the end of the program. -/
theorem entry_le_of_processed {settings : AssemblySettings} {program : Program} {j : Journal} {b c : Assembly}
    (hresolved : Resolved settings program { journal := j } b)
    (hprocessed : Processed settings.surroundings b program.statements c) :
    0 ≤ c.entryPoint.getD 0 ∧ c.entryPoint.getD 0 ≤ c.records.length := by
  obtain ⟨l, index, hget, hentry⟩ := hresolved.entry
  obtain ⟨late, records, hadded⟩ := hprocessed.added
  have hmem : (settings.entryLabel, (⟨l, .label index⟩ : Symbol)) ∈ labelEntries 0 program.statements := by
    have hmem := SymbolTable.mem_entries_of_get? hget
    rw [hresolved.symbols] at hmem
    exact hmem
  obtain ⟨before, _, after, hstatements, hsymbol⟩ := exists_of_mem_labelEntries hmem
  have hindex : index = (before.countP Statement.isInstruction : Nat) := by
    simpa using Meaning.label.inj (Symbol.mk.inj hsymbol).2
  have hle : before.countP Statement.isInstruction ≤ c.records.length := by
    rw [hadded.records_eq, List.length_append, hadded.length, hstatements, List.countP_append]
    omega
  rw [hadded.entryPoint, hentry, Option.getD_some, hindex]
  exact ⟨Int.natCast_nonneg _, by exact_mod_cast hle⟩

/-- An image that comes out of an assembly consists of instructions, as long as its memory can be told by words. -/
theorem executable_of_compile {settings : AssemblySettings} {program : Program} {j : Journal} {image : Image}
    {a : Assembly} (h : compile settings program { journal := j } = .ok (some image) a)
    (hmemory : image.memory.length < 2 ^ 64) : image.Executable := by
  obtain ⟨hsteps, himage⟩ := (compile_leads settings program _).at_ok h
  obtain ⟨b, hresolved, ⟨last, hprocessed, hquiet⟩, -, rfl⟩ := himage image rfl
  have hsizes : last.symbols.HasWordSizes := by
    rw [← hquiet.symbols]
    exact ((laidOut_empty j).steps hsteps).hasWordSizes hmemory
  have hempty : b.records = [] := hresolved.code.2
  obtain ⟨hnonneg, hle⟩ := entry_le_of_processed hresolved hprocessed
  refine ⟨?_, ?_, ?_, rfl⟩
  · rw [hquiet.records]
    exact hprocessed.isInstruction hsizes (by simp [hempty])
  · rw [hquiet.entryPoint]
    exact hnonneg
  · rw [hquiet.entryPoint, hquiet.records]
    exact hle

end Assembly

/-! ## Images that come out of a run -/

namespace Session

variable {s t : Session} {source path : String} {output : Option Path}

theorem exists_of_afterPhase {α : Type} {phase : Phase α} {next : α → Run Bool}
    (h : afterPhase path phase next s = .ok true t) : ∃ x, phase = .finished x ∧ next x s = .ok true t := by
  cases phase with
  | finished x => exact ⟨x, rfl, h⟩
  | stopped reason => cases h
  | faulted fault =>
    obtain ⟨_, _, -, h⟩ := exists_of_bind_eq_ok h
    cases h

theorem image_of_deliver {image : Image} (h : deliver path output image s = .ok true t) : t.image = some image := by
  cases output with
  | none =>
    cases h
    rfl
  | some target =>
    obtain ⟨_, u, -, h⟩ := exists_of_bind_eq_ok h
    obtain ⟨_, -, h⟩ := exists_of_afterPhase h
    cases h
    rfl

/-- An image is generated by compiling the program. -/
theorem generateImage_compiled (program : Program) (s : Session) :
    Leads (generateImage program) s
      (fun phase _ => ∀ image?, phase = .finished image? →
        ∃ a, Assembly.compile s.assemblySettings program { journal := s.journal } = .ok image? a)
      fun _ _ => True := by
  refine generateImage_cases (fun image? a hresult => ?_) fun abort a _ => ?_
  · rintro _ ⟨⟩
    exact ⟨a, hresult⟩
  · refine (ofAbort_unfinished abort _).mono (fun phase _ h image? hphase => ?_) fun _ _ h => h
    exact absurd hphase (h.2 image?)

/-- A run that succeeds leaves the image to which a program was compiled. -/
theorem exists_compile_of_assemble (h : assemble source path output s = .ok true t) :
    ∃ settings program j image a, Assembly.compile settings program { journal := j } = .ok (some image) a ∧
      t.image = some image := by
  rw [assemble_eq] at h
  obtain ⟨_, _, -, h⟩ := exists_of_bind_eq_ok h
  obtain ⟨_, u, -, h⟩ := exists_of_bind_eq_ok h
  obtain ⟨program, -, h⟩ := exists_of_afterPhase h
  rw [translate, get_bind] at h
  split at h
  · cases h
  · obtain ⟨_, v, -, h⟩ := exists_of_bind_eq_ok h
    obtain ⟨phase, w, hgenerate, h⟩ := exists_of_bind_eq_ok h
    obtain ⟨image?, hphase, h⟩ := exists_of_afterPhase h
    obtain ⟨a, hcompile⟩ := (generateImage_compiled program v).at_ok hgenerate image? hphase
    cases image? with
    | none => cases h
    | some image => exact ⟨_, program, _, image, a, hcompile, image_of_deliver h⟩

/-- A text that writes statements is assembled to the image to which these are compiled, whatever their places. -/
theorem assembleText_of_yieldAll {text : String} {ts : List Terminal} {ss : List Statement} {image : Image}
    (htext : Spells text.toList ts) (hyields : Statement.YieldAll ss ts)
    (hcompile : ∀ program j, program.statements.map Statement.unlocated = ss.map Statement.unlocated →
      j.diagnostics.happened = false →
      ∃ a, Assembly.compile s.assemblySettings program { journal := j } = .ok (some image) a ∧
        a.journal.diagnostics = j.diagnostics) {path : String} (hpath : Unit.CanStart s.surroundings path) :
    ∃ t, assembleText text path s = .ok (some image) t ∧ t.journal.diagnostics = s.journal.diagnostics.reset := by
  obtain ⟨ss', hsame, hread⟩ := Program.read_of_yieldAll hpath htext hyields
  let start : Journal := ⟨s.journal.diagnostics.reset, s.journal.log ++ [.assembling path]⟩
  let read : Journal := ⟨start.diagnostics, start.log ++ [.parsing path, .parsed ss'.length path]⟩
  let expanded : Journal := { read with log := read.log ++ [.expanded path (Program.instructionCount ⟨ss', path⟩)] }
  obtain ⟨a, hcompiled, hquiet⟩ := hcompile ⟨ss', path⟩ expanded hsame rfl
  obtain ⟨t, hassemble, hjournal⟩ := assembleText_of_compile (hread start) rfl hcompiled
  exact ⟨t, hassemble, (congrArg Journal.diagnostics hjournal).trans hquiet⟩

end Session

/-- What survives of an image: it has a header and, with and without the interpreter line, a binary form, which decodes
to an image whose listings are assembled to the image at hand, without a diagnostic, by any session that expects the
usual entry label, under any name with which reading starts, which that of the input always is. -/
structure Image.Survives (image : Image) : Prop where
  header : ∃ bytes, image.header = .ok bytes
  encode : ∀ interpreter, ∃ bytes, image.encode interpreter = .ok bytes
  reassemble : ∀ interpreter bytes, image.encode interpreter = .ok bytes →
    ∃ decoded, decode bytes = .ok decoded ∧
      ∀ indent : String, (∀ c ∈ indent.toList, Lexeme.isBlank c = true) →
      ∀ name : Option String, (∀ n ∈ name, '\n' ∉ n.toList) →
      ∀ (s : Session) (path : String), s.settings.entryLabel = entryLabel →
        Unit.CanStart s.surroundings path →
        ∃ t, Session.assembleText (decoded.listing indent name) path s = .ok (some image) t ∧
          t.journal.diagnostics = s.journal.diagnostics.reset

theorem Image.Executable.survives {image : Image} (h : image.Executable) (hrecords : image.records.length < 2 ^ 64)
    (hmemory : image.memory.length < 2 ^ 64) : image.Survives := by
  have hencodable := h.encodable hrecords hmemory
  refine ⟨hencodable.header, hencodable.encode, fun interpreter bytes hbytes => ⟨image, decode_encode hbytes, ?_⟩⟩
  intro indent hindent name hname s path hlabel hpath
  have hfits : ∀ r ∈ image.records, r.Fits := fun r hr => (h.records r hr).fits
  obtain ⟨ts, htext, hyields⟩ := image.listing_spells hindent hname hfits
  refine Session.assembleText_of_yieldAll htext hyields (fun program j hsame hclean => ?_) hpath
  have hsettings : s.assemblySettings.entryLabel = entryLabel := hlabel
  have hcompile := compile_statements hsettings h.entry_nonneg hfits hsame hclean
  rwa [h.normalForm_eq] at hcompile

/-- A run that succeeds leaves an image. If this has fewer than `2 ^ 64` instructions and bytes of memory, then each of
its records is an instruction of the table with a word for its argument, which is zero if the mnemonic takes none, its
entry point lies in the program or at its end, and its version is the current one; so it has a binary form, and what is
decoded from that and listed is assembled to the same image again. -/
theorem Session.assemble_survives {s t : Session} {source path : String} {output : Option Path}
    (h : assemble source path output s = .ok true t) :
    ∃ image, t.image = some image ∧
      (image.records.length < 2 ^ 64 → image.memory.length < 2 ^ 64 → image.Executable ∧ image.Survives) := by
  obtain ⟨settings, program, j, image, a, hcompile, himage⟩ := exists_compile_of_assemble h
  refine ⟨image, himage, fun hrecords hmemory => ?_⟩
  have hexecutable := Assembly.executable_of_compile hcompile hmemory
  exact ⟨hexecutable, hexecutable.survives hrecords hmemory⟩

/-- A source that pushes the greatest word and has its entry behind that. -/
theorem Session.assemble_survives_greatest :
    let image : Image := { memory := [0, 255], records := [⟨0x10, 2 ^ 64 - 1⟩, ⟨0x11, 0⟩], entryPoint := 1 }
    let source := image.listing "" none
    ∃ t, assemble source "main" none {} = .ok true t ∧ t.image = some image ∧ image.Executable ∧ image.Survives := by
  intro image source
  have hexecutable : image.Executable := by
    refine ⟨?_, by decide, by decide, rfl⟩
    have hpush : InstructionSet.byOpcode? 0x10 = some ⟨"psh", 0x10, true⟩ := by decide
    have hpop : InstructionSet.byOpcode? 0x11 = some ⟨"pop", 0x11, false⟩ := by decide
    simp [image, Record.IsInstruction, hpush, hpop]
  have hsurvives := hexecutable.survives (by decide) (by decide)
  obtain ⟨bytes, hbytes⟩ := hsurvives.encode false
  obtain ⟨decoded, hdecode, hagain⟩ := hsurvives.reassemble false bytes hbytes
  obtain rfl : image = decoded := Except.ok.inj ((Image.decode_encode hbytes).symm.trans hdecode)
  obtain ⟨u, hrun, -⟩ := hagain "" (by simp) none (by simp) {} "main" rfl ⟨[], rfl⟩
  obtain ⟨success, t, hassemble, hanswer⟩ := exists_of_bind_eq_ok hrun
  cases success with
  | false => cases hanswer
  | true =>
    have himage : t.image = some image := (EStateM.Result.ok.inj hanswer).1
    obtain ⟨image', himage', hboth⟩ := assemble_survives hassemble
    obtain rfl : image = image' := Option.some.inj (himage.symm.trans himage')
    exact ⟨t, hassemble, himage, hboth (by decide) (by decide)⟩

end AvmAssembler
