import AvmAssembler.Image.Listing
import AvmAssembler.Proofs.Source.Lines

/-! # Listings derive statements

The lines of a listing write statements: memory is one region of bytes spread over rows, each record with a mnemonic is
an instruction with a literal argument, and the entry point is a label. All other lines are comments or empty.
-/

namespace AvmAssembler

/-- The fields of a record fit their places in a file. -/
structure Record.Fits (r : Record) : Prop where
  opcode : 0 ≤ r.opcode ∧ r.opcode < 256
  argument : 0 ≤ r.argument ∧ r.argument < Word.modulus

instance (r : Record) : Decidable r.Fits :=
  decidable_of_iff ((0 ≤ r.opcode ∧ r.opcode < 256) ∧ 0 ≤ r.argument ∧ r.argument < Word.modulus)
    ⟨fun h => ⟨h.1, h.2⟩, fun h => ⟨h.opcode, h.argument⟩⟩

def ListedRecord.statements (r : ListedRecord) : List Statement :=
  match r.mnemonic with
  | none => []
  | some m =>
    [.instruction none m.name (if m.takesArgument then some (.integer none r.record.argument) else none)]

namespace Image

def memoryStatements (memory : List UInt8) : List Statement :=
  if memory.isEmpty then [] else [.region none "memory" .byte (memory.map fun b => .integer none b.toNat)]

/-- The label of the entry point, if it stands before the record, and the record's own instruction. -/
def recordStatements (entryPoint : Int) (r : ListedRecord) : List Statement :=
  (if (r.index : Int) = entryPoint then [.label none entryLabel] else []) ++ r.statements

def statements (image : Image) : List Statement :=
  memoryStatements image.memory ++ image.listedRecords.flatMap (recordStatements image.entryPoint) ++
    (if (image.records.length : Int) ≤ image.entryPoint then [.label none entryLabel] else [])

/-! ## Memory -/

def byteTerminal (b : UInt8) : Terminal :=
  ⟨.integer .hexadecimal, "0x" ++ Text.Digit.upperHexPair b.toNat⟩

def byteTerminals : List UInt8 → List Terminal
  | [] => []
  | [b] => [byteTerminal b]
  | b :: bs => byteTerminal b :: .comma :: byteTerminals bs

theorem byteTerminals_append {xs ys : List UInt8} (hxs : xs ≠ []) (hys : ys ≠ []) :
    byteTerminals (xs ++ ys) = byteTerminals xs ++ .comma :: byteTerminals ys := by
  match xs, ys with
  | [b], c :: ys => rfl
  | b :: c :: xs, ys =>
    have htail := byteTerminals_append (List.cons_ne_nil c xs) hys
    simpa [byteTerminals] using htail

theorem byteTerminal_denotes (b : UInt8) : (byteTerminal b).Denotes b.toNat := by
  have hb : b.toNat < 256 := b.toNat_lt
  refine ⟨Numeral.integer_upperHexPair hb, ?_, ?_⟩
  · simp only [Numeral.least]
    omega
  · simp only [Numeral.greatest]
    omega

theorem initializersYield_byteTerminals : ∀ {bytes : List UInt8}, bytes ≠ [] →
    Expr.InitializersYield (bytes.map fun b => .integer none b.toNat) (byteTerminals bytes)
  | [], h => absurd rfl h
  | [b], _ => ⟨byteTerminal b, byteTerminal_denotes b, rfl⟩
  | b :: c :: bytes, _ =>
    ⟨[byteTerminal b], _, ⟨byteTerminal b, byteTerminal_denotes b, rfl⟩,
      initializersYield_byteTerminals (List.cons_ne_nil c bytes), rfl⟩

theorem byteTerminal_spells (b : UInt8) : SpellsAhead ("0x" ++ Text.Digit.upperHexPair b.toNat).toList [byteTerminal b] :=
  .of_spelledBy (Terminal.spelledBy_byte b.toNat_lt)

theorem rowText_cons_cons (b c : UInt8) (row : List UInt8) :
    (rowText (b :: c :: row)).toList =
      ("0x" ++ Text.Digit.upperHexPair b.toNat).toList ++ ',' :: ' ' :: (rowText (c :: row)).toList := by
  have htext : rowText (b :: c :: row) =
      "0x" ++ Text.Digit.upperHexPair b.toNat ++ ", " ++ rowText (c :: row) := by
    simp only [rowText, List.map_cons, String.intercalate_cons_cons]
    rfl
  simp [htext]

theorem rowText_spells : ∀ {row : List UInt8}, row ≠ [] →
    SpellsAhead (rowText row).toList (byteTerminals row)
  | [], h => absurd rfl h
  | [b], _ => by
    have htext : rowText [b] = "0x" ++ Text.Digit.upperHexPair b.toNat := by
      simp only [rowText, List.map_singleton, String.intercalate_singleton]
      rfl
    rw [htext]
    exact byteTerminal_spells b
  | b :: c :: row, _ => by
    have hcomma : SpellsAhead ([','] ++ ' ' :: (rowText (c :: row)).toList)
        ([.comma] ++ byteTerminals (c :: row)) :=
      (SpellsAhead.of_spelledBy Terminal.spelledBy_comma).append_space (rowText_spells (List.cons_ne_nil c row))
    rw [rowText_cons_cons]
    exact (byteTerminal_spells b).append (Lexeme.delimited_cons (by decide) (by decide) (by decide)) hcomma

theorem rows_nil : rows [] = [] := by
  rw [rows, dif_pos rfl]

theorem rows_of_ne_nil {bytes : List UInt8} (h : bytes ≠ []) :
    rows bytes = bytes.take rowLength :: rows (bytes.drop rowLength) := by
  rw [rows, dif_neg h]

/-- Rows put together again are the bytes, and no row is empty. -/
theorem rows_spec (bytes : List UInt8) : (rows bytes).flatten = bytes ∧ ∀ row ∈ rows bytes, row ≠ [] := by
  induction hlength : bytes.length using Nat.strong_induction_on generalizing bytes with
  | _ n ih =>
    by_cases hne : bytes = []
    · simp [hne, rows_nil]
    · have hpos : 0 < bytes.length := List.length_pos_iff.2 hne
      have hshorter : (bytes.drop rowLength).length < n := by
        simp only [List.length_drop, rowLength]
        omega
      obtain ⟨hflatten, hrows⟩ := ih _ hshorter _ rfl
      rw [rows_of_ne_nil hne]
      refine ⟨by rw [List.flatten_cons, hflatten, List.take_append_drop], ?_⟩
      intro row hrow
      rcases List.mem_cons.1 hrow with rfl | hrow
      · simp [rowLength, hne]
      · exact hrows row hrow

variable {indent : String}

/-- Rows spell the bytes in them, with the commas between rows at the ends of lines. -/
theorem rowLines_spell (hindent : ∀ c ∈ indent.toList, Lexeme.isBlank c = true) : ∀ {rs : List (List UInt8)},
    (∀ row ∈ rs, row ≠ []) → LinesSpell (rowLines indent rs) (byteTerminals rs.flatten)
  | [], _ => .nil
  | [row], h => by
    have hline : (s!"{indent}{rowText row}").toList = indent.toList ++ (rowText row).toList :=
      String.toList_append
    have hrow := (rowText_spells (h row (by simp))).blanks hindent
    rw [← hline] at hrow
    simpa [rowLines] using LinesSpell.single hrow
  | row :: next :: rest, h => by
    have hline : (s!"{indent}{rowText row},").toList = indent.toList ++ ((rowText row).toList ++ [',']) := by
      have htext : s!"{indent}{rowText row}," = indent ++ rowText row ++ "," := rfl
      simp [htext]
    have hrow : SpellsAhead ((rowText row).toList ++ [',']) (byteTerminals row ++ [.comma]) :=
      (rowText_spells (h row (by simp))).append (Lexeme.delimited_cons (by decide) (by decide) (by decide))
        (.of_spelledBy Terminal.spelledBy_comma)
    have hfirst := hrow.blanks hindent
    rw [← hline] at hfirst
    have hrows : ∀ r ∈ next :: rest, r ≠ [] := fun r hr => h r (List.mem_cons_of_mem row hr)
    have hrest := rowLines_spell hindent hrows
    have hflatten : (next :: rest).flatten ≠ [] := by
      have hnext := h next (by simp)
      simp [hnext]
    rw [List.flatten_cons, byteTerminals_append (h row (by simp)) hflatten]
    simpa [rowLines] using (LinesSpell.single hfirst).append hrest

theorem memoryHead_spells : SpellsAhead "let memory byte =".toList
    [.keyword .declareVariable, .name "memory", .type .byte, .equals] := by
  have hlet : SpellsAhead "let".toList [.keyword .declareVariable] :=
    .of_spelledBy (Terminal.isLexeme_keyword .declareVariable)
  have hname : SpellsAhead "memory".toList [.name "memory"] := .of_spelledBy (Terminal.isLexeme_name (by decide))
  have htype : SpellsAhead "byte".toList [.type .byte] := .of_spelledBy (Terminal.isLexeme_type .byte)
  have hequals : SpellsAhead ['='] [.equals] := .of_spelledBy Terminal.spelledBy_equals
  have hall := hlet.append_space (hname.append_space (htype.append_space hequals))
  simpa using hall

theorem memoryLines_write (hindent : ∀ c ∈ indent.toList, Lexeme.isBlank c = true) {memory : List UInt8}
    (hne : memory ≠ []) :
    LinesWrite (memoryLines indent memory)
      [.region none "memory" .byte (memory.map fun b => .integer none b.toNat)] := by
  obtain ⟨hflatten, hrows⟩ := rows_spec memory
  have hlines := (LinesSpell.single memoryHead_spells).append (rowLines_spell hindent hrows)
  rw [hflatten] at hlines
  have hplain : InstructionSet.isMnemonic "memory" = false := by decide
  exact .of_yields hlines ⟨byteTerminals memory, hplain, initializersYield_byteTerminals hne, rfl⟩

/-! ## Records -/

theorem byName?_of_byOpcode? {opcode : Int} {m : Mnemonic} (h : InstructionSet.byOpcode? opcode = some m) :
    InstructionSet.byName? m.name = some m := by
  have hnames : ∀ m ∈ InstructionSet.table, InstructionSet.byName? m.name = some m := by decide
  exact hnames m (List.mem_of_find?_eq_some h)

theorem entryLabel_write : LinesWrite [s!".{entryLabel}"] [.label none entryLabel] := by
  have hlabel : SpellsAhead (s!".{entryLabel}").toList [.label entryLabel] :=
    .of_spelledBy (Terminal.isLexeme_label (by decide))
  exact .of_yields (.single hlabel) rfl

theorem newline_not_mem_toString (v : Int) : '\n' ∉ (toString v).toList :=
  not_mem_toString (by decide) (by decide) v

theorem newline_not_mem_upperHexPair {n : Nat} (h : n < 256) : '\n' ∉ (Text.Digit.upperHexPair n).toList := by
  have hdigits : ∀ d < 16, Text.Digit.upperHex d ≠ '\n' := by decide
  have hfirst := hdigits (n / 16) (by omega)
  have hsecond := hdigits (n % 16) (by omega)
  simp [Text.Digit.upperHexPair_eq h, hfirst.symm, hsecond.symm]

theorem unknown_write (hindent : ∀ c ∈ indent.toList, Lexeme.isBlank c = true) {r : ListedRecord}
    (hm : r.mnemonic = none) (hfits : r.record.Fits) : LinesWrite [indent ++ r.text] r.statements := by
  have hopcode := hfits.opcode
  have hhex : ListedRecord.hex r.record.opcode = Text.Digit.upperHexPair r.record.opcode.toNat := by
    rw [ListedRecord.hex, if_neg (by omega)]
  have htext : r.text = "#" ++ (" unknown opcode 0x" ++ Text.Digit.upperHexPair r.record.opcode.toNat ++
      ", argument " ++ toString r.record.argument) := by
    simp only [ListedRecord.text, hm, hhex, ← String.append_assoc]
    rfl
  have hbody : '\n' ∉ (" unknown opcode 0x" ++ Text.Digit.upperHexPair r.record.opcode.toNat ++
      ", argument " ++ toString r.record.argument).toList := by
    simp only [String.toList_append, List.mem_append, not_or]
    exact ⟨⟨⟨by decide, newline_not_mem_upperHexPair (by omega)⟩, by decide⟩, newline_not_mem_toString _⟩
  have hcomment := LinesSpell.comment hindent hbody
  rw [← htext] at hcomment
  simpa [ListedRecord.statements, hm] using LinesWrite.of_nothing hcomment

theorem instruction_write (hindent : ∀ c ∈ indent.toList, Lexeme.isBlank c = true) {r : ListedRecord}
    {m : Mnemonic} (hm : r.mnemonic = some m) (hname : InstructionSet.byName? m.name = some m)
    (hfits : r.record.Fits) : LinesWrite [indent ++ r.text] r.statements := by
  have hword : SpellsAhead m.name.toList [.name m.name] := .of_spelledBy (Terminal.isLexeme_mnemonic hname)
  cases harity : m.takesArgument with
  | false =>
    have htext : r.text = m.name := by simp [ListedRecord.text, hm, harity]
    have hline : SpellsAhead (indent ++ r.text).toList [.name m.name] := by
      rw [String.toList_append, htext]
      exact hword.blanks hindent
    have hyields : Statement.Yields (.instruction none m.name none) [.name m.name] := ⟨⟨m, hname, harity⟩, rfl⟩
    simpa [ListedRecord.statements, hm, harity] using LinesWrite.of_yields (.single hline) hyields
  | true =>
    have htext : r.text = m.name ++ " " ++ toString r.record.argument := by
      simp only [ListedRecord.text, hm, harity, if_true]
      rfl
    have hargument : SpellsAhead (toString r.record.argument).toList
        [⟨.integer .decimal, toString r.record.argument⟩] := .of_spelledBy (Terminal.isLexeme_decimal _)
    have hline : SpellsAhead (indent ++ r.text).toList
        [.name m.name, ⟨.integer .decimal, toString r.record.argument⟩] := by
      have htoList : (m.name ++ " " ++ toString r.record.argument).toList =
          m.name.toList ++ ' ' :: (toString r.record.argument).toList := by
        rw [String.toList_append, String.toList_append, List.append_assoc]
        rfl
      rw [String.toList_append, htext, htoList]
      exact (hword.append_space hargument).blanks hindent
    have hrange : Numeral.least ≤ r.record.argument ∧ r.record.argument ≤ Numeral.greatest := by
      have hbounds := hfits.argument
      simp only [Numeral.least, Numeral.greatest, Word.modulus, Word.width, Nat.pow_eq] at hbounds ⊢
      omega
    have hdenotes : Terminal.Denotes ⟨.integer .decimal, toString r.record.argument⟩ r.record.argument :=
      ⟨Numeral.integer_toString hrange.1 hrange.2, hrange⟩
    have hyields : Statement.Yields (.instruction none m.name (some (.integer none r.record.argument)))
        [.name m.name, ⟨.integer .decimal, toString r.record.argument⟩] :=
      .inl ⟨m, _, hname, harity, ⟨_, hdenotes, rfl⟩, rfl⟩
    simpa [ListedRecord.statements, hm, harity] using LinesWrite.of_yields (.single hline) hyields

theorem recordLines_write (hindent : ∀ c ∈ indent.toList, Lexeme.isBlank c = true) (entryPoint : Int)
    {r : ListedRecord} (hmnemonic : r.mnemonic = InstructionSet.byOpcode? r.record.opcode)
    (hfits : r.record.Fits) : LinesWrite (recordLines indent entryPoint r) (recordStatements entryPoint r) := by
  have hrecord : LinesWrite [indent ++ r.text] r.statements := by
    cases hm : r.mnemonic with
    | none => exact unknown_write hindent hm hfits
    | some m => exact instruction_write hindent hm (byName?_of_byOpcode? (hmnemonic.symm.trans hm)) hfits
  refine LinesWrite.append ?_ hrecord
  split
  · exact entryLabel_write
  · exact .nil

/-! ## Whole listings -/

theorem comment_write {line body : String} (hline : line = "#" ++ body) (hbody : '\n' ∉ body.toList) :
    LinesWrite [line] [] := by
  have hgap : ∀ c ∈ "".toList, Lexeme.isBlank c = true := by simp
  have hcomment := LinesSpell.comment hgap hbody
  rw [String.empty_append, ← hline] at hcomment
  exact .of_nothing hcomment

theorem newline_not_mem_toString_nat (n : Nat) : '\n' ∉ (toString n).toList :=
  newline_not_mem_toString (n : Int)

theorem headLines_write (image : Image) {name : Option String} (hname : ∀ n ∈ name, '\n' ∉ n.toList) :
    LinesWrite (image.headLines name) [] := by
  obtain ⟨memory, records, entryPoint, ⟨major, minor, patch⟩⟩ := image
  have htitle : LinesWrite
      ((name.filter fun n => !n.isEmpty).toList.map fun n => s!"# Disassembly of {n}") [] := by
    cases hn : name.filter fun n => !n.isEmpty with
    | none => exact .nil
    | some n =>
      have hmem : n ∈ name := (Option.filter_eq_some_iff.1 hn).1
      have hbody : '\n' ∉ (" Disassembly of " ++ n).toList := by
        simp only [String.toList_append, List.mem_append, not_or]
        exact ⟨by decide, hname n hmem⟩
      refine comment_write ?_ hbody
      rw [← String.append_assoc]
      rfl
  have hversion : LinesWrite [s!"# AVM format {major}.{minor}.{patch}"] [] := by
    have hbody : '\n' ∉ (" AVM format " ++ toString major ++ "." ++ toString minor ++ "." ++ toString patch).toList := by
      simp only [String.toList_append, List.mem_append, not_or]
      exact ⟨⟨⟨⟨⟨by decide, newline_not_mem_toString _⟩, by decide⟩, newline_not_mem_toString _⟩, by decide⟩,
        newline_not_mem_toString _⟩
    refine comment_write ?_ hbody
    simp only [← String.append_assoc]
    rfl
  have hcounts : LinesWrite [s!"# {records.length} instructions, {memory.length} bytes of memory"] [] := by
    have hbody : '\n' ∉ (" " ++ toString records.length ++ " instructions, " ++ toString memory.length ++
        " bytes of memory").toList := by
      simp only [String.toList_append, List.mem_append, not_or]
      exact ⟨⟨⟨⟨by decide, newline_not_mem_toString_nat _⟩, by decide⟩, newline_not_mem_toString_nat _⟩, by decide⟩
    refine comment_write ?_ hbody
    simp only [← String.append_assoc]
    rfl
  have hempty : LinesWrite [""] [] := .of_nothing (.single .nil)
  exact htitle.append (hversion.append (hcounts.append hempty))

/-- The lines of a listing write its statements. -/
theorem lines_write (image : Image) (hindent : ∀ c ∈ indent.toList, Lexeme.isBlank c = true)
    {name : Option String} (hname : ∀ n ∈ name, '\n' ∉ n.toList) (hfits : ∀ r ∈ image.records, r.Fits) :
    LinesWrite (image.lines indent name) image.statements := by
  have hmemory : LinesWrite (if image.memory.isEmpty then [] else memoryLines indent image.memory ++ [""])
      (memoryStatements image.memory) := by
    unfold memoryStatements
    split
    · exact .nil
    · rename_i hne
      have hempty : LinesSpell [""] [] := .single .nil
      simpa using (memoryLines_write hindent (by simpa using hne)).append (.of_nothing hempty)
  have hrecords : LinesWrite (image.listedRecords.flatMap (recordLines indent image.entryPoint))
      (image.listedRecords.flatMap (recordStatements image.entryPoint)) := by
    apply LinesWrite.flatMap
    intro r hr
    obtain ⟨i, hi, rfl⟩ := List.mem_mapIdx.1 hr
    exact recordLines_write hindent _ rfl (hfits _ (List.getElem_mem hi))
  have hentry : LinesWrite (if (image.records.length : Int) ≤ image.entryPoint then [s!".{entryLabel}"] else [])
      (if (image.records.length : Int) ≤ image.entryPoint then [.label none entryLabel] else []) := by
    split
    · exact entryLabel_write
    · exact .nil
  exact (((headLines_write image hname).append hmemory).append hrecords).append hentry

theorem listing_spells (image : Image) (hindent : ∀ c ∈ indent.toList, Lexeme.isBlank c = true)
    {name : Option String} (hname : ∀ n ∈ name, '\n' ∉ n.toList) (hfits : ∀ r ∈ image.records, r.Fits) :
    ∃ ts, Spells (image.listing indent name).toList ts ∧ Statement.YieldAll image.statements ts := by
  obtain ⟨ts, hlines, hyields⟩ := lines_write image hindent hname hfits
  exact ⟨ts, hlines.spells, hyields⟩

end Image

end AvmAssembler
