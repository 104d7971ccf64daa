import AvmAssembler.Proofs.Assembly.Passes
import AvmAssembler.Proofs.Source.Derivation

/-! # Programs of literals

Labels, instructions with literal arguments and regions of literal bytes need nothing but themselves. If their names are
free, both passes go through them without a fault and without a warning.
-/

namespace AvmAssembler

namespace Statement

def labelName? : Statement → Option String
  | .label _ name => some name
  | _ => none

/-- The record of an instruction whose argument is a literal, if the mnemonic takes one. -/
def literalRecord? : Statement → Option Record
  | .instruction _ name none =>
    ((InstructionSet.byName? name).filter fun m => !m.takesArgument).map fun m => ⟨m.opcode, 0⟩
  | .instruction _ name (some (.integer _ v)) =>
    ((InstructionSet.byName? name).filter fun m => m.takesArgument).map fun m => ⟨m.opcode, Word.ofInt v⟩
  | _ => none

theorem labelName?_unlocated (s : Statement) : s.unlocated.labelName? = s.labelName? := by
  cases s <;> rfl

theorem lateName?_unlocated (s : Statement) : s.unlocated.lateName? = s.lateName? := by
  cases s <;> rfl

theorem literalRecord?_unlocated (s : Statement) : s.unlocated.literalRecord? = s.literalRecord? := by
  cases s with
  | instruction l name argument =>
    cases argument with
    | none => rfl
    | some e => cases e <;> rfl
  | _ => rfl

/-- What does not depend on places is the same for lists of statements that differ in their places only. -/
theorem filterMap_eq_of_unlocated {α : Type} {f : Statement → Option α} (hf : ∀ s, f s.unlocated = f s)
    {ss others : List Statement} (h : ss.map unlocated = others.map unlocated) :
    ss.filterMap f = others.filterMap f := by
  have hmap : ∀ list : List Statement, list.filterMap f = (list.map unlocated).filterMap f := by
    intro list
    rw [List.filterMap_map]
    exact List.filterMap_congr fun s _ => (hf s).symm
  rw [hmap ss, hmap others, h]

theorem isInstruction_unlocated (s : Statement) : s.unlocated.isInstruction = s.isInstruction := by
  cases s <;> rfl

theorem countP_isInstruction_unlocated (ss : List Statement) :
    (ss.map unlocated).countP isInstruction = ss.countP isInstruction := by
  rw [List.countP_map]
  exact List.countP_congr fun s _ => by rw [Function.comp_apply, isInstruction_unlocated]

end Statement

namespace Assembly

/-! ## First pass -/

theorem bindLabels_label {address : Nat} {declared : Pending} {l : Option Location} {name : String}
    {rest : List Statement} {a : Assembly} (hdeclared : declared.lookup name = none)
    (hfree : a.symbols.get? name = none) :
    bindLabels address declared (.label l name :: rest) a =
      bindLabels address declared rest (a.grow { entries := [(name, ⟨l, .label address⟩)] }) := by
  have hdefine : a.symbols.define name ⟨l, .label address⟩ = .ok (a.symbols.push name ⟨l, .label address⟩) :=
    SymbolTable.define_eq_ok.2 ⟨hfree, rfl⟩
  have hgrow : a.grow { entries := [(name, ⟨l, .label address⟩)] } =
      { a with symbols := a.symbols.push name ⟨l, .label address⟩ } := by
    simp [grow, SymbolTable.push]
  rw [bindLabels, hdeclared, hgrow]
  simp [hdefine]

theorem get?_grow_of_ne {a : Assembly} {name other : String} {symbol : Symbol} (hne : other ≠ name)
    (hfree : a.symbols.get? other = none) :
    (a.grow { entries := [(name, symbol)] }).symbols.get? other = none := by
  rw [get?_grow_name, hfree, if_neg hne, Option.or_none]

theorem labelEntries_names (address : Nat) (ss : List Statement) :
    (labelEntries address ss).map Prod.fst = ss.filterMap Statement.labelName? := by
  induction ss generalizing address with
  | nil => rfl
  | cons s rest ih =>
    cases s with
    | label l name =>
      rw [labelEntries, List.map_cons, ih]
      rfl
    | _ => rw [labelEntries, ih, List.filterMap_cons_none rfl] <;> simp

/-- Labels with distinct names that nothing else declares are all bound. -/
theorem bindLabels_of_distinct {address : Nat} {declared : Pending} {ss : List Statement} {a : Assembly}
    (hnodup : (ss.filterMap Statement.labelName?).Nodup)
    (hlate : ∀ n ∈ ss.filterMap Statement.labelName?, n ∉ ss.filterMap Statement.lateName?)
    (hdeclared : ∀ n ∈ ss.filterMap Statement.labelName?, declared.lookup n = none)
    (hfree : ∀ n ∈ ss.filterMap Statement.labelName?, a.symbols.get? n = none) :
    bindLabels address declared ss a =
      .ok (address + ss.countP Statement.isInstruction) (a.grow { entries := labelEntries address ss }) := by
  induction ss generalizing address declared a with
  | nil =>
    rw [labelEntries, grow_nothing]
    rfl
  | cons s rest ih =>
    cases s with
    | label l name =>
      have hlabels : (Statement.label l name :: rest).filterMap Statement.labelName? =
          name :: rest.filterMap Statement.labelName? := rfl
      simp only [hlabels, List.nodup_cons, List.mem_cons, forall_eq_or_imp] at hnodup hlate hdeclared hfree
      rw [bindLabels_label hdeclared.1 hfree.1]
      rw [ih hnodup.2 hlate.2 hdeclared.2]
      · rw [List.countP_cons_of_neg (by simp [Statement.isInstruction])]
        simp [grow, labelEntries]
      · intro n hn
        have hne : n ≠ name := fun heq => hnodup.1 (heq ▸ hn)
        exact get?_grow_of_ne hne (hfree.2 n hn)
    | instruction l name argument =>
      rw [bindLabels, ih hnodup hlate hdeclared hfree, List.countP_cons_of_pos rfl, labelEntries]
      congr 1
      omega
    | constant l name e | region l name type es | embedding l name path =>
      have hrest : ∀ n ∈ rest.filterMap Statement.labelName?,
          n ≠ name ∧ n ∉ rest.filterMap Statement.lateName? := by
        intro n hn
        have hmem : n ∉ name :: rest.filterMap Statement.lateName? := hlate n hn
        simpa using hmem
      have hgrown : ∀ n ∈ rest.filterMap Statement.labelName?, (declared ++ [(name, l)]).lookup n = none := by
        intro n hn
        rw [lookup_snoc, if_neg (hrest n hn).1, Option.or_none]
        exact hdeclared n hn
      rw [bindLabels, List.countP_cons_of_neg (by simp [Statement.isInstruction])]
      · simp only [Statement.lateName?, Statement.location]
        split
        · exact ih hnodup (fun n hn => (hrest n hn).2) hdeclared hfree
        · exact ih hnodup (fun n hn => (hrest n hn).2) hgrown hfree
      all_goals simp
    | foreign l kind =>
      rw [bindLabels, List.countP_cons_of_neg (by simp [Statement.isInstruction])]
      · exact ih hnodup hlate hdeclared hfree
      all_goals simp

/-! ## Second pass -/

theorem valueOf_integer (pending : Pending) (l : Option Location) (v : Int) (a : Assembly) :
    valueOf pending (.integer l v) a = .ok (Word.ofInt v) a := rfl

theorem process_literal (env : Surroundings) (pending : Pending) {s : Statement} {r : Record}
    (h : s.literalRecord? = some r) (a : Assembly) :
    process env pending s a = .ok () (a.grow { records := [r] }) := by
  unfold Statement.literalRecord? at h
  split at h
  · obtain ⟨m, hm, rfl⟩ := Option.map_eq_some_iff.1 h
    obtain ⟨hname, harity⟩ := Option.filter_eq_some_iff.1 hm
    simp only [Bool.not_eq_true'] at harity
    simp only [process, appendInstruction, hname, harity, grow, List.append_nil]
    rfl
  · obtain ⟨m, hm, rfl⟩ := Option.map_eq_some_iff.1 h
    obtain ⟨hname, harity⟩ := Option.filter_eq_some_iff.1 hm
    simp only [process, appendInstruction, hname, harity, grow, List.append_nil]
    rfl
  · cases h

/-- A label adds nothing, and a literal instruction adds its record. -/
theorem process_plain (env : Surroundings) (pending : Pending) {s : Statement}
    (h : s.labelName?.isSome = true ∨ s.literalRecord?.isSome = true) (a : Assembly) :
    process env pending s a = .ok () (a.grow { records := s.literalRecord?.toList }) := by
  cases hs : s.literalRecord? with
  | some r => exact process_literal env pending hs a
  | none =>
    cases s with
    | label l name =>
      rw [Option.toList_none, grow_nothing]
      rfl
    | _ => simp [Statement.labelName?, hs] at h

theorem processAll_literal {env : Surroundings} {pending : Pending} {ss : List Statement}
    (h : ∀ s ∈ ss, s.labelName?.isSome = true ∨ s.literalRecord?.isSome = true) (a : Assembly) :
    processAll env pending ss a = .ok () (a.grow { records := ss.filterMap Statement.literalRecord? }) := by
  induction ss generalizing a with
  | nil =>
    rw [List.filterMap_nil, grow_nothing]
    rfl
  | cons s rest ih =>
    have hprocess := process_plain env pending (h s (by simp)) a
    have hrecords : (s :: rest).filterMap Statement.literalRecord? =
        s.literalRecord?.toList ++ rest.filterMap Statement.literalRecord? := by
      cases hs : s.literalRecord? <;> simp [hs]
    rw [processAll, bind_of_ok (attempt_of_ok hprocess), ih fun t ht => h t (List.mem_cons_of_mem s ht), hrecords]
    simp [grow]

theorem fits_byte {word : Nat} (h : word < 256) : fits 8 word = true := by
  simp [fits, h]

theorem element_byte {type : ElementType} (hsize : type.size = 1) (l : Option Location) (b : UInt8) (a : Assembly) :
    element b.toNat type l a = .ok [b] a := by
  have hbytes : bigEndian type.size b.toNat = [b] := by
    simp [hsize, bigEndian]
  have hfits : fits (8 * type.size) b.toNat = true := by
    rw [hsize]
    exact fits_byte b.toNat_lt
  simp only [element, hfits, Bool.not_true, Bool.and_false, Bool.false_eq_true, if_false, hbytes]
  rfl

theorem initializerBytes_byte (pending : Pending) (l : Option Location) (b : UInt8) (a : Assembly) :
    initializerBytes pending .byte (.integer l b.toNat) a = .ok [b] a := by
  have hb : b.toNat < 256 := b.toNat_lt
  have hword : Word.ofInt (b.toNat : Int) = b.toNat := by
    rw [Word.ofInt_natCast, Nat.mod_eq_of_lt (Nat.lt_trans hb (by decide))]
  rw [initializerBytes, bind_of_ok (valueOf_integer pending l b.toNat a), hword]
  · exact element_byte rfl l b a
  all_goals simp

theorem initializersBytes_bytes {pending : Pending} {bytes : List UInt8} {es : List Expr}
    (h : Expr.unlocatedAll es = bytes.map fun b => .integer none b.toNat) (a : Assembly) :
    initializersBytes pending .byte es a = .ok bytes a := by
  induction bytes generalizing es with
  | nil =>
    cases es with
    | nil => rfl
    | cons e es => cases h
  | cons b bytes ih =>
    cases es with
    | nil => cases h
    | cons e es =>
      obtain ⟨he, hes⟩ := List.cons.inj h
      cases e with
      | integer l v =>
        obtain rfl := (Expr.integer.inj he).2
        rw [initializersBytes, bind_of_ok (initializerBytes_byte pending l b a), bind_of_ok (ih hes)]
        rfl
      | _ => cases he

theorem process_region {env : Surroundings} {pending : Pending} {l : Option Location} {name : String}
    {type : ElementType} {es : List Expr} {bytes : List UInt8} {a b : Assembly} (hfree : a.symbols.get? name = none)
    (h : initializersBytes pending type es a = .ok bytes b) :
    process env pending (.region l name type es) a =
      .ok () (b.grow { entries := [(name, ⟨l, .region a.memory.length bytes.length⟩)], bytes := bytes }) := by
  have hquiet : Quiet a b := ((initializersBytes_leads pending type es a).at_ok h).1
  have hcheck : checkFree name l a = .ok () a := by
    rw [checkFree, get_bind, SymbolTable.checkFree_eq_ok.2 hfree]
    rfl
  have hbytes : orBind name ⟨l, .region a.memory.length 0⟩ (initializersBytes pending type es) a = .ok bytes b := by
    simp only [orBind, h]
  have hfree' : b.symbols.get? name = none := hquiet.symbols ▸ hfree
  rw [process, adaptExcept_eq_ok, bindRegion, bind_of_ok hcheck, get_bind, bind_of_ok hbytes, appendRegion_of_free l bytes hfree', hquiet.memory]

theorem process_bytes {env : Surroundings} {pending : Pending} {l : Option Location} {name : String}
    {es : List Expr} {bytes : List UInt8} (h : Expr.unlocatedAll es = bytes.map fun b => .integer none b.toNat)
    {a : Assembly} (hfree : a.symbols.get? name = none) :
    process env pending (.region l name .byte es) a =
      .ok () (a.grow { entries := [(name, ⟨l, .region a.memory.length bytes.length⟩)], bytes := bytes }) :=
  process_region hfree (initializersBytes_bytes h a)

/-! ## Both passes -/

theorem resolve_of_bindLabels {settings : AssemblySettings} {program : Program} {a b : Assembly} {count : Nat}
    {l : Option Location} {index : Int} (hbind : bindLabels 0 [] program.statements a = .ok count b)
    (hentry : b.symbols.get? settings.entryLabel = some ⟨l, .label index⟩)
    (hclean : b.journal.diagnostics.happened = false) :
    resolve settings program a =
      .ok true
        { b with
          entryPoint := some index
          journal := { b.journal with log := b.journal.log ++ [.resolved b.symbols.size count index] } } := by
  rw [resolve, bind_of_ok hbind, get_bind]
  simp only [hentry, modify_bind, get_bind]
  rw [bind_of_ok (note_eq _ _), get_bind]
  simp [hclean]

theorem conclude_of_clean {a : Assembly} (hclean : a.journal.diagnostics.happened = false) :
    conclude a =
      .ok (some { memory := a.memory, records := a.records, entryPoint := a.entryPoint.getD 0 })
        { a with
          journal := { a.journal with log := a.journal.log ++ [.generated a.records.length a.memory.length] } } := by
  rw [conclude, get_bind, if_neg (by simp [hclean]), bind_of_ok (note_eq _ a)]
  rfl

end Assembly

end AvmAssembler
