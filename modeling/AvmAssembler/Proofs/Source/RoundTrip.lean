import AvmAssembler.Proofs.Source.Completeness
import AvmAssembler.Proofs.Source.Spelling

/-! # Writing programs

A program is written as the spellings of its terminals with a space between each and the next; nothing else marks where
a statement ends. A program that is written so is read back as it was, up to the places of its nodes.
-/

namespace AvmAssembler

/-! ## Writable trees -/

def SizeofTarget.isWritable : SizeofTarget → Bool
  | name _ n => isIdentifier n
  | type .. => true

mutual

def Expr.isWritable : Expr → Bool
  | .integer _ v => Numeral.least ≤ v && v ≤ Numeral.greatest
  | .string .. | .type .. => true
  | .name _ n => isIdentifier n
  | .apply _ (.known _) operands => Expr.areWritable operands
  | .sizeof _ target => target.isWritable
  | .float .. | .apply _ (.unknown _) _ | .fill .. | .foreign .. => false

def Expr.areWritable : List Expr → Bool
  | [] => true
  | e :: es => e.isWritable && Expr.areWritable es

end

def Expr.isWritableInitializer : Expr → Bool
  | .fill _ value count => value.isWritable && count.isWritable
  | e => e.isWritable

/-- The statement can be written. An instruction has an argument if and only if its mnemonic takes one. -/
def Statement.isWritable : Statement → Bool
  | .instruction _ name argument =>
    ((InstructionSet.byName? name).any fun m => m.takesArgument = argument.isSome) &&
      argument.all Expr.isWritable
  | .label _ name => isLabelName name
  | .constant _ name value => isIdentifier name && value.isWritable
  | .region _ name _ initializers =>
    isIdentifier name && !initializers.isEmpty && initializers.all Expr.isWritableInitializer
  | .embedding _ name _ => isIdentifier name
  | .foreign .. => false

/-! ## The writer -/

def SizeofTarget.terminal : SizeofTarget → Terminal
  | name _ n => .name n
  | type _ t => .type t

mutual

/-- The terminals of an expression; there are none for trees that cannot be written. -/
def Expr.terminals : Expr → List Terminal
  | .integer _ v => [⟨.integer .decimal, toString v⟩]
  | .string _ text => [.string text]
  | .name _ n => [.name n]
  | .type _ t => [.type t]
  | .apply _ (.known o) operands => .openParen :: .operator o :: (Expr.allTerminals operands ++ [.closeParen])
  | .sizeof _ target => [.openParen, .keyword .sizeof, target.terminal, .closeParen]
  | .fill _ value count => value.terminals ++ .fill :: count.terminals
  | .float .. | .apply _ (.unknown _) _ | .foreign .. => []

def Expr.allTerminals : List Expr → List Terminal
  | [] => []
  | e :: es => e.terminals ++ Expr.allTerminals es

end

/-- The terminals of initializers between commas. -/
def Expr.initializerTerminals : List Expr → List Terminal
  | [] => []
  | [e] => e.terminals
  | e :: es => e.terminals ++ .comma :: Expr.initializerTerminals es

def Statement.terminals : Statement → List Terminal
  | .instruction _ name argument => .name name :: argument.elim [] Expr.terminals
  | .label _ name => [.label name]
  | .constant _ name value => .keyword .declareConstant :: .name name :: .equals :: value.terminals
  | .region _ name type initializers =>
    .keyword .declareVariable :: .name name :: .type type :: .equals :: Expr.initializerTerminals initializers
  | .embedding _ name path => [.keyword .embedding, .name name, .string path]
  | .foreign .. => []

def Statement.written (ss : List Statement) : String :=
  " ".intercalate ((ss.flatMap Statement.terminals).map Terminal.spelling)

/-! ## What is written derives from the tree -/

theorem SizeofTarget.yields_terminal {target : SizeofTarget} (h : target.isWritable = true) :
    target.Yields target.terminal := by
  cases target with
  | name l n => exact ⟨(isIdentifier_iff.1 h).2.2, rfl⟩
  | type l t => rfl

mutual

theorem Expr.yields_terminals : ∀ {e : Expr}, e.isWritable = true → e.Yields e.terminals
  | .integer _ v, h => by
    have hrange : Numeral.least ≤ v ∧ v ≤ Numeral.greatest := by simpa [Expr.isWritable] using h
    have hdenotes : Terminal.Denotes ⟨.integer .decimal, toString v⟩ v :=
      ⟨Numeral.integer_toString hrange.1 hrange.2, hrange⟩
    exact ⟨_, hdenotes, rfl⟩
  | .string .., _ => rfl
  | .name _ n, h => ⟨(isIdentifier_iff.1 h).2.2, rfl⟩
  | .type .., _ => rfl
  | .apply _ (.known o) operands, h => ⟨o, _, rfl, Expr.yieldAll_allTerminals h, rfl⟩
  | .sizeof _ target, h => ⟨_, SizeofTarget.yields_terminal h, rfl⟩

theorem Expr.yieldAll_allTerminals : ∀ {es : List Expr}, Expr.areWritable es = true →
    Expr.YieldAll es (Expr.allTerminals es)
  | [], _ => rfl
  | e :: es, h => by
    obtain ⟨he, hes⟩ := Bool.and_eq_true_iff.1 h
    exact ⟨_, _, Expr.yields_terminals he, Expr.yieldAll_allTerminals hes, rfl⟩

end

theorem Expr.initializerYields_terminals {e : Expr} (h : e.isWritableInitializer = true) :
    e.InitializerYields e.terminals := by
  cases e with
  | fill l value count =>
    obtain ⟨hvalue, hcount⟩ := Bool.and_eq_true_iff.1 h
    exact ⟨_, _, Expr.yields_terminals hvalue, Expr.yields_terminals hcount, rfl⟩
  | _ => exact Expr.yields_terminals h

theorem Expr.initializersYield_initializerTerminals : ∀ {es : List Expr}, es ≠ [] →
    (∀ e ∈ es, e.isWritableInitializer = true) → Expr.InitializersYield es (Expr.initializerTerminals es)
  | [], hne, _ => absurd rfl hne
  | [e], _, h => Expr.initializerYields_terminals (h e (by simp))
  | e :: f :: es, _, h =>
    ⟨_, _, Expr.initializerYields_terminals (h e (by simp)),
      Expr.initializersYield_initializerTerminals (by simp) fun g hg => h g (List.mem_cons_of_mem e hg), rfl⟩

theorem Statement.yields_terminals {s : Statement} (h : s.isWritable = true) : s.Yields s.terminals := by
  cases s with
  | instruction l name argument =>
    obtain ⟨hname, hargument⟩ := Bool.and_eq_true_iff.1 h
    obtain ⟨m, hm, harity⟩ := (Option.any_eq_true _ _).1 hname
    cases argument with
    | none => exact ⟨⟨m, hm, by simpa using harity⟩, rfl⟩
    | some e =>
      have he : e.isWritable = true := by simpa using hargument
      exact .inl ⟨m, _, hm, by simpa using harity, Expr.yields_terminals he, rfl⟩
  | label l name => rfl
  | constant l name value =>
    obtain ⟨hname, hvalue⟩ := Bool.and_eq_true_iff.1 h
    exact ⟨_, (isIdentifier_iff.1 hname).2.2, Expr.yields_terminals hvalue, rfl⟩
  | region l name type initializers =>
    simp only [isWritable, Bool.and_eq_true, Bool.not_eq_true', List.all_eq_true] at h
    obtain ⟨⟨hname, hne⟩, hall⟩ := h
    exact ⟨_, (isIdentifier_iff.1 hname).2.2,
      Expr.initializersYield_initializerTerminals (by simpa using hne) hall, rfl⟩
  | embedding l name path => exact ⟨(isIdentifier_iff.1 h).2.2, rfl⟩
  | foreign l kind => cases h

theorem Statement.yieldAll_terminals : ∀ {ss : List Statement}, (∀ s ∈ ss, s.isWritable = true) →
    Statement.YieldAll ss (ss.flatMap Statement.terminals)
  | [], _ => rfl
  | s :: ss, h => ⟨_, _, Statement.yields_terminals (h s (by simp)),
    Statement.yieldAll_terminals fun t ht => h t (List.mem_cons_of_mem s ht), by simp⟩

/-! ## What is written is spelled -/

theorem SizeofTarget.isLexeme_terminal {target : SizeofTarget} (h : target.isWritable = true) :
    target.terminal.IsLexeme := by
  cases target with
  | name l n => exact Terminal.isLexeme_name h
  | type l t => exact Terminal.isLexeme_type t

mutual

theorem Expr.isLexeme_terminals : ∀ {e : Expr}, e.isWritable = true → ∀ t ∈ e.terminals, t.IsLexeme
  | .integer _ v, _ => by simpa [Expr.terminals] using Terminal.isLexeme_decimal v
  | .string _ text, _ => by simpa [Expr.terminals] using Terminal.isLexeme_string text
  | .name _ n, h => by simpa [Expr.terminals] using Terminal.isLexeme_name h
  | .type _ t, _ => by simpa [Expr.terminals] using Terminal.isLexeme_type t
  | .apply _ (.known o) operands, h => by
    have hoperands : ∀ t ∈ Expr.allTerminals operands, t.IsLexeme := Expr.isLexeme_allTerminals h
    simp only [Expr.terminals, List.forall_mem_cons, List.forall_mem_append]
    exact ⟨Terminal.spelledBy_openParen, Terminal.isLexeme_operator o, hoperands,
      Terminal.spelledBy_closeParen, List.forall_mem_nil _⟩
  | .sizeof _ target, h => by
    simp only [Expr.terminals, List.forall_mem_cons]
    exact ⟨Terminal.spelledBy_openParen, Terminal.isLexeme_keyword _, SizeofTarget.isLexeme_terminal h,
      Terminal.spelledBy_closeParen, List.forall_mem_nil _⟩

theorem Expr.isLexeme_allTerminals : ∀ {es : List Expr}, Expr.areWritable es = true →
    ∀ t ∈ Expr.allTerminals es, t.IsLexeme
  | [], _ => by simp [Expr.allTerminals]
  | e :: es, h => by
    obtain ⟨he, hes⟩ := Bool.and_eq_true_iff.1 h
    simp only [Expr.allTerminals, List.forall_mem_append]
    exact ⟨Expr.isLexeme_terminals he, Expr.isLexeme_allTerminals hes⟩

end

theorem Expr.isLexeme_initializer {e : Expr} (h : e.isWritableInitializer = true) :
    ∀ t ∈ e.terminals, t.IsLexeme := by
  cases e with
  | fill l value count =>
    obtain ⟨hvalue, hcount⟩ := Bool.and_eq_true_iff.1 h
    simp only [terminals, List.forall_mem_append, List.forall_mem_cons]
    exact ⟨isLexeme_terminals hvalue, Terminal.spelledBy_fill, isLexeme_terminals hcount⟩
  | _ => exact isLexeme_terminals h

theorem Expr.isLexeme_initializerTerminals : ∀ {es : List Expr},
    (∀ e ∈ es, e.isWritableInitializer = true) → ∀ t ∈ Expr.initializerTerminals es, t.IsLexeme
  | [], _ => by simp [Expr.initializerTerminals]
  | [e], h => Expr.isLexeme_initializer (h e (by simp))
  | e :: f :: es, h => by
    simp only [Expr.initializerTerminals, List.forall_mem_append, List.forall_mem_cons]
    exact ⟨Expr.isLexeme_initializer (h e (by simp)), Terminal.spelledBy_comma,
      Expr.isLexeme_initializerTerminals fun g hg => h g (List.mem_cons_of_mem e hg)⟩

theorem Statement.isLexeme_terminals {s : Statement} (h : s.isWritable = true) :
    ∀ t ∈ s.terminals, t.IsLexeme := by
  cases s with
  | instruction l name argument =>
    obtain ⟨hname, hargument⟩ := Bool.and_eq_true_iff.1 h
    obtain ⟨m, hm, -⟩ := (Option.any_eq_true _ _).1 hname
    cases argument with
    | none => simpa [terminals] using Terminal.isLexeme_mnemonic hm
    | some e =>
      simp only [terminals, Option.elim, List.forall_mem_cons]
      exact ⟨Terminal.isLexeme_mnemonic hm, Expr.isLexeme_terminals (by simpa using hargument)⟩
  | label l name => simpa [terminals] using Terminal.isLexeme_label h
  | constant l name value =>
    obtain ⟨hname, hvalue⟩ := Bool.and_eq_true_iff.1 h
    simp only [terminals, List.forall_mem_cons]
    exact ⟨Terminal.isLexeme_keyword _, Terminal.isLexeme_name hname, Terminal.spelledBy_equals,
      Expr.isLexeme_terminals hvalue⟩
  | region l name type initializers =>
    simp only [isWritable, Bool.and_eq_true, List.all_eq_true] at h
    simp only [terminals, List.forall_mem_cons]
    exact ⟨Terminal.isLexeme_keyword _, Terminal.isLexeme_name h.1.1, Terminal.isLexeme_type type,
      Terminal.spelledBy_equals, Expr.isLexeme_initializerTerminals h.2⟩
  | embedding l name path =>
    simp only [terminals, List.forall_mem_cons]
    exact ⟨Terminal.isLexeme_keyword _, Terminal.isLexeme_name h, Terminal.isLexeme_string path,
      List.forall_mem_nil _⟩
  | foreign l kind => cases h

theorem Statement.spells_written {ss : List Statement} (h : ∀ s ∈ ss, s.isWritable = true) :
    Spells (Statement.written ss).toList (ss.flatMap Statement.terminals) := by
  have hlexemes : ∀ t ∈ ss.flatMap Statement.terminals, t.IsLexeme := by
    intro t ht
    obtain ⟨s, hs, hts⟩ := List.mem_flatMap.1 ht
    exact Statement.isLexeme_terminals (h s hs) t hts
  have hspells := spells_intercalate id Terminal.spelling _ hlexemes
  rwa [List.map_id] at hspells

/-- A written program is read back with nothing recorded: no pair of adjacent statements needs a mark between them. The
name of the source may be any with which reading starts, which that of the input always is. -/
theorem Program.read_written {env : Surroundings} {file : String} (hstart : Unit.CanStart env file)
    (ss : List Statement) (h : ∀ s ∈ ss, s.isWritable = true) (j : Journal) :
    ∃ p j', Program.read env file (Statement.written ss) j = .ok p j' ∧ p.file = file ∧
      p.statements.map Statement.unlocated = ss.map Statement.unlocated ∧
      j'.diagnostics = j.diagnostics := by
  obtain ⟨ss', hsame, hread⟩ :=
    Program.read_of_yieldAll hstart (Statement.spells_written h) (Statement.yieldAll_terminals h)
  exact ⟨_, _, hread j, rfl, hsame, rfl⟩

theorem Program.read_written_fill :
    let ss : List Statement :=
      [.region none "a" .i16 [.fill none (.integer none (-1)) (.integer none 3), .string none "say \"\n"],
        .instruction none "psh" (some (.apply none (.known .sub) [.integer none 5])), .label none "add",
        .instruction none "add" none]
    Statement.written ss =
        "let a i16 = -1 .. 3 , \"say \\\"\\n\" psh ( - 5 ) .add add" ∧
      ∃ p j', Program.read ⟨{}, []⟩ "a.avm" (Statement.written ss) {} = .ok p j' ∧ p.file = "a.avm" ∧
        p.statements.map Statement.unlocated = ss.map Statement.unlocated ∧
        j'.diagnostics = ({} : Journal).diagnostics :=
  ⟨by decide +kernel, Program.read_written ⟨[], rfl⟩ _ (by decide) {}⟩

end AvmAssembler
