import AvmAssembler.Proofs.Assembly.Layout

/-! # Instruction indices

The first pass counts statements and the second appends records. When they yield an image, they agree: each instruction
has its record at the number of instructions before it, and each label stands for that number at its place.
-/

namespace AvmAssembler

/-- What an expression can refer to at a place: the labels of the whole program, and the constants and regions that are
declared before the place. -/
def SymbolTable.visible (table : SymbolTable) (before : List Statement) : SymbolTable :=
  ⟨table.entries.filter fun e =>
    e.2.meaning.kind = .label || (before.filterMap Statement.lateName?).contains e.1⟩

namespace Assembly

/-! ## Labels -/

theorem labelEntries_append (address : Nat) (before rest : List Statement) :
    labelEntries address (before ++ rest) =
      labelEntries address before ++ labelEntries (address + before.countP Statement.isInstruction) rest := by
  induction before generalizing address with
  | nil => rfl
  | cons s before ih =>
    cases s with
    | instruction l name argument =>
      simp only [List.cons_append, labelEntries, ih]
      rw [List.countP_cons_of_pos rfl, Nat.add_right_comm, Nat.add_assoc]
    | _ => simp [labelEntries, ih, Statement.isInstruction]

/-- Each label entry comes from a label statement, with the instructions before it counted. -/
theorem exists_of_mem_labelEntries {address : Nat} {ss : List Statement} {name : String} {symbol : Symbol}
    (h : (name, symbol) ∈ labelEntries address ss) :
    ∃ before l after, ss = before ++ .label l name :: after ∧
      symbol = ⟨l, .label (address + before.countP Statement.isInstruction : Nat)⟩ := by
  induction ss generalizing address with
  | nil => cases h
  | cons s rest ih =>
    have hlater : ∀ address', (name, symbol) ∈ labelEntries address' rest →
        (∀ n, address' + n = address + (if s.isInstruction then n + 1 else n)) →
        ∃ before l after, s :: rest = before ++ .label l name :: after ∧
          symbol = ⟨l, .label (address + before.countP Statement.isInstruction : Nat)⟩ := by
      intro address' hmem haddress
      obtain ⟨before, l, after, rfl, rfl⟩ := ih hmem
      refine ⟨s :: before, l, after, rfl, ?_⟩
      rw [haddress, List.countP_cons]
      split <;> rfl
    cases s with
    | label l other =>
      rcases List.mem_cons.1 h with heq | hmem
      · cases heq
        exact ⟨[], l, rest, rfl, rfl⟩
      · exact hlater address hmem fun n => rfl
    | instruction l other argument =>
      exact hlater (address + 1) h fun n => by simp [Statement.isInstruction]; omega
    | _ => exact hlater address h fun n => rfl

theorem label_of_mem_labelEntries {address : Nat} {ss : List Statement} {e : String × Symbol}
    (h : e ∈ labelEntries address ss) : e.2.meaning.kind = .label := by
  obtain ⟨before, l, after, -, heq⟩ := exists_of_mem_labelEntries h
  rw [heq]
  rfl

/-! ## Statements that had their effects -/

theorem Effect.entries_eq {env : Surroundings} {a : Assembly} {s : Statement} {g : Growth}
    (h : Effect env a s g) : g.entries.map Prod.fst = s.lateName?.toList ∧
      ∀ e ∈ g.entries, e.2.meaning.kind ≠ .label := by
  cases h <;> simp [Statement.lateName?, Meaning.kind]

theorem Effect.records_length {env : Surroundings} {a : Assembly} {s : Statement} {g : Growth}
    (h : Effect env a s g) : g.records.length = [s].countP Statement.isInstruction := by
  cases h <;> rfl

/-- What statements have added: the names they declare, none of them a label, and one record for each instruction. -/
structure Added (ss : List Statement) (a b : Assembly) (late : List (String × Symbol)) (records : List Record) :
    Prop where
  entries : b.symbols.entries = a.symbols.entries ++ late
  names : late.map Prod.fst = ss.filterMap Statement.lateName?
  kinds : ∀ e ∈ late, e.2.meaning.kind ≠ .label
  records_eq : b.records = a.records ++ records
  length : records.length = ss.countP Statement.isInstruction
  entryPoint : b.entryPoint = a.entryPoint

theorem Processed.added {env : Surroundings} {ss : List Statement} {a c : Assembly} (h : Processed env a ss c) :
    ∃ late records, Added ss a c late records := by
  induction h with
  | nil a => exact ⟨[], [], by simp, rfl, by simp, by simp, rfl, rfl⟩
  | @cons a b c s g rest hg hb _ ih =>
    obtain ⟨late, records, hentries, hnames, hkinds, hrecords, hlength, hentry⟩ := ih
    obtain ⟨hnew, hnewKinds⟩ := hg.entries_eq
    refine ⟨g.entries ++ late, g.records ++ records, ?_, ?_, ?_, ?_, ?_, ?_⟩
    · rw [hentries, hb.symbols, grow_entries, List.append_assoc]
    · rw [List.map_append, hnew, hnames]
      cases hs : s.lateName? <;> simp [hs]
    · intro e he
      rcases List.mem_append.1 he with he | he
      · exact hnewKinds e he
      · exact hkinds e he
    · rw [hrecords, hb.records, grow_records, List.append_assoc]
    · rw [List.length_append, hg.records_length, hlength, ← List.countP_append]
      rfl
    · rw [hentry, hb.entryPoint, grow_entryPoint]

theorem Processed.append_iff {env : Surroundings} {before after : List Statement} {a c : Assembly} :
    Processed env a (before ++ after) c ↔ ∃ b, Processed env a before b ∧ Processed env b after c := by
  induction before generalizing a with
  | nil =>
    constructor
    · exact fun h => ⟨a, .nil a, h⟩
    · rintro ⟨b, ⟨⟩, h⟩
      exact h
  | cons s before ih =>
    constructor
    · rintro (_ | ⟨hg, hb, h⟩)
      obtain ⟨d, hbefore, hafter⟩ := ih.1 h
      exact ⟨d, .cons hg hb hbefore, hafter⟩
    · rintro ⟨d, (_ | ⟨hg, hb, hbefore⟩), hafter⟩
      exact .cons hg hb (ih.2 ⟨d, hbefore, hafter⟩)

theorem Processed.steps {env : Surroundings} {ss : List Statement} {a b : Assembly} (h : Processed env a ss b) :
    Steps a b := by
  induction h with
  | nil => exact .refl
  | cons hg hb _ ih => exact .head (.of_effect hg hb) ih

/-! ## Agreement of the passes -/

/-- The word is the argument of an instruction: the value of its expression, or zero if the mnemonic takes none. -/
def IsArgument (table : SymbolTable) (m : Mnemonic) (argument : Option Expr) (word : Nat) : Prop :=
  match argument with
  | none => m.takesArgument = false ∧ word = 0
  | some e => m.takesArgument = true ∧ ∀ pending, e.value table pending = .ok word

/-- An image agrees with its program and its symbols on the indices of instructions. -/
structure Indexed (settings : AssemblySettings) (program : Program) (image : Image) (symbols : SymbolTable) :
    Prop where
  /-- There is one record for each instruction. -/
  length : image.records.length = program.instructionCount
  /-- A label stands for the number of instructions before it. -/
  label : ∀ name l index, symbols.get? name = some ⟨l, .label index⟩ ↔
    ∃ before after, program.statements = before ++ .label l name :: after ∧
      index = before.countP Statement.isInstruction
  /-- The record at that number is the record of the instruction there. -/
  record : ∀ before l name argument after,
    program.statements = before ++ .instruction l name argument :: after →
    ∃ m word, InstructionSet.byName? name = some m ∧
      image.records[before.countP Statement.isInstruction]? = some ⟨m.opcode, (word : Nat)⟩ ∧
      IsArgument (symbols.visible before) m argument word
  /-- The entry point is the value of its label and lies in the program or at its end. -/
  entry : ∃ l, symbols.get? settings.entryLabel = some ⟨l, .label image.entryPoint⟩ ∧
    0 ≤ image.entryPoint ∧ image.entryPoint ≤ image.records.length

theorem visible_eq {labels early late : List (String × Symbol)} {before : List Statement}
    (hlabels : ∀ e ∈ labels, e.2.meaning.kind = .label)
    (hearly : early.map Prod.fst = before.filterMap Statement.lateName?)
    (hlate : ∀ e ∈ late, e.2.meaning.kind ≠ .label)
    (hnodup : SymbolTable.names ⟨labels ++ early ++ late⟩ |>.Nodup) :
    SymbolTable.visible ⟨labels ++ early ++ late⟩ before = ⟨labels ++ early⟩ := by
  have hkept : ∀ e ∈ early, (before.filterMap Statement.lateName?).contains e.1 = true := by
    intro e he
    rw [← hearly]
    simpa using ⟨e.2, he⟩
  have hdropped : ∀ e ∈ late, (before.filterMap Statement.lateName?).contains e.1 = false := by
    intro e he
    rw [SymbolTable.names, List.map_append, List.nodup_append] at hnodup
    rw [← hearly, Bool.eq_false_iff]
    intro hmem
    have hmem' : e.1 ∈ (labels ++ early).map Prod.fst := by
      rw [List.map_append]
      exact List.mem_append_right _ (List.contains_iff_mem.1 hmem)
    exact hnodup.2.2 e.1 hmem' e.1 (List.mem_map_of_mem he) rfl
  rw [SymbolTable.visible, List.filter_append, List.filter_append, SymbolTable.mk.injEq]
  rw [List.filter_eq_self.2, List.filter_eq_self.2, List.filter_eq_nil_iff.2, List.append_nil]
  · intro e he
    simp only [hlate e he, hdropped e he, decide_false, Bool.or_false, Bool.false_eq_true, not_false_eq_true]
  · intro e he
    simp only [hkept e he, Bool.or_true]
  · intro e he
    simp only [hlabels e he, decide_true, Bool.true_or]

theorem Effect.record_eq {env : Surroundings} {a : Assembly} {l : Option Location} {name : String}
    {argument : Option Expr} {g : Growth} (hsizes : a.symbols.HasSizes)
    (h : Effect env a (.instruction l name argument) g) :
    ∃ m word, InstructionSet.byName? name = some m ∧ g.records = [⟨m.opcode, (word : Nat)⟩] ∧
      IsArgument a.symbols m argument word := by
  cases h with
  | nullary hname harity => exact ⟨_, 0, hname, rfl, harity, rfl⟩
  | unary hname harity hword =>
    exact ⟨_, _, hname, rfl, harity, fun pending => Expr.value_of_word? hsizes hword pending⟩

theorem get?_label_iff {ss : List Statement} {late : List (String × Symbol)} {table : SymbolTable}
    (hentries : table.entries = labelEntries 0 ss ++ late) (hlate : ∀ e ∈ late, e.2.meaning.kind ≠ .label)
    (hnodup : table.names.Nodup) (name : String) (l : Option Location) (index : Int) :
    table.get? name = some ⟨l, .label index⟩ ↔
      ∃ before after, ss = before ++ .label l name :: after ∧ index = before.countP Statement.isInstruction := by
  constructor
  · intro hget
    have hmem := SymbolTable.mem_entries_of_get? hget
    rw [hentries] at hmem
    rcases List.mem_append.1 hmem with hmem | hmem
    · obtain ⟨before, _, after, hss, heq⟩ := exists_of_mem_labelEntries hmem
      obtain ⟨rfl, hindex⟩ := Symbol.mk.inj heq
      exact ⟨before, after, hss, by simpa using Meaning.label.inj hindex⟩
    · exact absurd rfl (hlate _ hmem)
  · rintro ⟨before, after, rfl, rfl⟩
    refine SymbolTable.get?_of_mem_entries hnodup ?_
    rw [hentries, labelEntries_append]
    simp [labelEntries]

/-- Started with labels only and without records, the second pass puts the record of an instruction behind the records
of the instructions before it, with the value that the argument has at its place. -/
theorem Processed.record_eq {env : Surroundings} {before after : List Statement} {l : Option Location} {name : String}
    {argument : Option Expr} {a b : Assembly}
    (h : Processed env a (before ++ .instruction l name argument :: after) b)
    (hlabels : ∀ e ∈ a.symbols.entries, e.2.meaning.kind = .label) (hempty : a.records = [])
    (hnodup : b.symbols.names.Nodup) (hsizes : b.symbols.HasSizes) :
    ∃ m word, InstructionSet.byName? name = some m ∧
      b.records[before.countP Statement.isInstruction]? = some ⟨m.opcode, (word : Nat)⟩ ∧
      IsArgument (b.symbols.visible before) m argument word := by
  obtain ⟨c, hbefore, hrest⟩ := Processed.append_iff.1 h
  obtain ⟨early, recordsBefore, haddedBefore⟩ := hbefore.added
  obtain ⟨later, _, haddedRest⟩ := hrest.added
  have hentries : b.symbols.entries = a.symbols.entries ++ early ++ later := by
    rw [haddedRest.entries, haddedBefore.entries]
  have hvisible : b.symbols.visible before = c.symbols := by
    have htable : b.symbols = ⟨a.symbols.entries ++ early ++ later⟩ := by rw [← hentries]
    rw [htable] at hnodup ⊢
    rw [visible_eq hlabels haddedBefore.names haddedRest.kinds hnodup, ← haddedBefore.entries]
  have hsizesBefore : c.symbols.HasSizes := by
    intro name l address size hmem
    apply hsizes name l address size
    rw [haddedRest.entries]
    exact List.mem_append_left _ hmem
  cases hrest with
  | @cons _ d _ _ g _ hg hd hafter =>
    obtain ⟨m, word, hname, hrecord, hargument⟩ := hg.record_eq hsizesBefore
    obtain ⟨_, recordsAfter, haddedAfter⟩ := hafter.added
    have hrecords : b.records = recordsBefore ++ ⟨m.opcode, (word : Nat)⟩ :: recordsAfter := by
      rw [haddedAfter.records_eq, hd.records, grow_records, haddedBefore.records_eq, hempty, hrecord]
      simp
    refine ⟨m, word, hname, ?_, hvisible ▸ hargument⟩
    rw [hrecords, ← haddedBefore.length, List.getElem?_append_right (Nat.le_refl _), Nat.sub_self]
    rfl

/-- When an assembly that starts empty yields an image, its passes agree. -/
theorem compile_indexed {settings : AssemblySettings} {program : Program} {j : Journal} {image : Image}
    {a : Assembly} (h : compile settings program { journal := j } = .ok (some image) a) :
    Indexed settings program image a.symbols := by
  obtain ⟨hsteps, himage⟩ := (compile_leads settings program _).at_ok h
  obtain ⟨b, hresolved, ⟨last, hprocessed, hquiet⟩, -, rfl⟩ := himage image rfl
  have hlaidOut : a.LaidOut := (laidOut_empty j).steps hsteps
  obtain ⟨late, records, hadded⟩ := hprocessed.added
  have hlabels : b.symbols.entries = labelEntries 0 program.statements := by
    rw [hresolved.symbols]
    rfl
  have hempty : b.records = [] := hresolved.code.2
  have hentries : a.symbols.entries = labelEntries 0 program.statements ++ late := by
    rw [hquiet.symbols, hadded.entries, hlabels]
  have hlength : a.records.length = program.instructionCount := by
    rw [hquiet.records, hadded.records_eq, hempty, List.nil_append, hadded.length]
    rfl
  have hlabel := get?_label_iff hentries hadded.kinds hlaidOut.names
  refine ⟨hlength, hlabel, ?_, ?_⟩
  · intro before l name argument after hstatements
    rw [hstatements] at hprocessed
    have hkinds : ∀ e ∈ b.symbols.entries, e.2.meaning.kind = .label := by
      rw [hlabels]
      exact fun e he => label_of_mem_labelEntries he
    rw [hquiet.symbols, hquiet.records]
    have hnodup := hlaidOut.names
    have hsizes := hlaidOut.hasSizes
    rw [hquiet.symbols] at hnodup hsizes
    exact hprocessed.record_eq hkinds hempty hnodup hsizes
  · obtain ⟨l, index, hget, hentry⟩ := hresolved.entry
    have hpoint : a.entryPoint.getD 0 = index := by
      rw [hquiet.entryPoint, hadded.entryPoint, hentry]
      rfl
    have hprefix : b.symbols.entries <+: a.symbols.entries := by
      rw [hlabels, hentries]
      exact List.prefix_append ..
    have hget' := SymbolTable.Agrees.of_prefix hprefix _ _ hget
    obtain ⟨before, after, hstatements, hindex⟩ := (hlabel _ _ _).1 hget'
    simp only [hpoint]
    refine ⟨l, hget', by omega, ?_⟩
    rw [hlength, hindex, Program.instructionCount, hstatements, List.countP_append]
    omega

theorem compile_indexed_forward :
    let settings : AssemblySettings := ⟨⟨{}, []⟩, "entry"⟩
    let program : Program :=
      ⟨[.instruction none "jmp" (some (.name none "entry")), .constant none "k" (.integer none 7),
        .label none "entry", .instruction none "psh" (some (.name none "k")), .instruction none "hlt" none], "a.avm"⟩
    let image : Image := { records := [⟨0x30, 1⟩, ⟨0x10, 7⟩, ⟨0xff, 0⟩], entryPoint := 1 }
    ∃ a, compile settings program { journal := {} } = .ok (some image) a ∧
      Indexed settings program image a.symbols := by
  intro settings program image
  have hcompile : ∃ a, compile settings program { journal := {} } = .ok (some image) a := ⟨_, rfl⟩
  obtain ⟨a, ha⟩ := hcompile
  exact ⟨a, ha, compile_indexed ha⟩

end Assembly

end AvmAssembler
