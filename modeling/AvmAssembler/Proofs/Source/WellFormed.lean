import AvmAssembler.Proofs.Source.Origins
import AvmAssembler.Proofs.Source.Separation
import AvmAssembler.Proofs.Source.Spelling

/-! # Well-formed statements

What the grammar promises about a statement whatever becomes of the text around it: the mnemonic is one of the table and
has an argument just if it takes one, names that are declared have no meaning of their own, numbers fit into a word, and
a fill stands nowhere but in front of its region. Reading gives up statements halfway and goes on behind them, and it
puts the statements of other files between its own; all that it keeps is well formed.
-/

namespace AvmAssembler

/-! ## Names of source text -/

/-- A name is a word without a meaning of its own, and a label is one that can be written behind a dot. -/
def Terminal.IsProper (t : Terminal) : Prop :=
  match t.kind with
  | .name => Lexeme.isWord t.text.toList = true ∧ TokenKind.ofWord t.text = .name
  | .label => isLabelName t.text = true
  | _ => True

namespace Lexeme

variable {cs sign seen text : List Char} {kind : TokenKind}

theorem word_isProper {c : Char} (hc : isWordStart c = true) (h : (word (c :: cs)).content = .token kind text) :
    Terminal.IsProper ⟨kind, String.ofList text⟩ := by
  have hword : isWord ((c :: cs).takeWhile isWordChar) = true := by
    simp only [List.takeWhile_cons, isWordChar_of_isWordStart hc, if_true, isWord, hc, Bool.true_and]
    exact List.all_takeWhile
  simp only [word, LexemeContent.token.injEq] at h
  obtain ⟨rfl, rfl⟩ := h
  unfold Terminal.IsProper
  split
  · rename_i hname
    exact ⟨by rwa [String.toList_ofList], hname⟩
  · rename_i hlabel
    simp [TokenKind.ofWord] at hlabel
    split at hlabel
    · cases hlabel
    · split at hlabel <;> cases hlabel
  · trivial

theorem dotted_isProper (h : (dotted cs).content = .token kind text) :
    Terminal.IsProper ⟨kind, String.ofList text⟩ := by
  unfold dotted at h
  split at h
  · cases h
  · rename_i c rest
    split at h
    · cases h
      trivial
    · split at h
      · rename_i hc
        cases h
        simp [Terminal.IsProper, isLabelName, hc]
      · split at h <;> cases h

theorem angle_isProper {c : Char} {operator : Operator} (h : (angle c operator cs).content = .token kind text) :
    Terminal.IsProper ⟨kind, String.ofList text⟩ := by
  unfold angle at h
  split at h
  · split at h <;> cases h
    trivial
  · cases h

/-- Words are names only if they have no other meaning, and labels consist of the characters of words. -/
theorem scan_isProper {c : Char} (h : (scan c cs).content = .token kind text) :
    Terminal.IsProper ⟨kind, String.ofList text⟩ := by
  unfold scan at h
  split at h
  · exact word_isProper ‹_› h
  split at h
  · rcases number_kind h with ⟨radix, rfl⟩ | rfl <;> trivial
  split at h
  · exact dotted_isProper h
  -- The rest are string and character literals and signs, whose texts may be any.
  split at h
  · simp only [string] at h
    split at h <;> cases h
    trivial
  split at h
  · unfold character closeCharacter at h
    repeat' split at h
    all_goals cases h <;> trivial
  split at h
  · exact angle_isProper h
  split at h
  · exact angle_isProper h
  split at h
  · rename_i hsingle
    cases h
    unfold single? at hsingle
    split at hsingle <;> cases hsingle <;> trivial
  · cases h

end Lexeme

theorem Terminal.SpelledBy.isProper {t : Terminal} {w : List Char} (h : t.SpelledBy w) : t.IsProper := by
  obtain ⟨c, cs, -, hscan⟩ := h
  have hcontent : (Lexeme.scan c cs).content = .token t.kind t.text.toList := by rw [hscan]
  simpa using Lexeme.scan_isProper hcontent

theorem tokenize_isProper (file text : String) : ∀ t ∈ (tokenize file text).1, t.terminal.IsProper :=
  fun t ht => (Cursor.spelledBy_lexeme (Cursor.stands_ofText text) t ht).isProper

theorem Terminal.IsProper.isIdentifier {n : String} (h : (Terminal.name n).IsProper) (hplain : IsPlainName n) :
    isIdentifier n = true :=
  isIdentifier_iff.2 ⟨h.1, h.2, hplain⟩

/-! ## Well-formed trees -/

/-- An expression of the grammar: integers fit into a word, names have no meaning of their own, operators are known. -/
inductive Expr.WellFormed : Expr → Prop
  | integer {l v} : Numeral.least ≤ v → v ≤ Numeral.greatest → WellFormed (.integer l v)
  | float (l bits) : WellFormed (.float l bits)
  | string (l text) : WellFormed (.string l text)
  | name {l n} : isIdentifier n = true → WellFormed (.name l n)
  | type (l t) : WellFormed (.type l t)
  | apply {l o operands} : (∀ e ∈ operands, WellFormed e) → WellFormed (.apply l (.known o) operands)
  | sizeofName {l place n} : isIdentifier n = true → WellFormed (.sizeof l (.name place n))
  | sizeofType (l place t) : WellFormed (.sizeof l (.type place t))

inductive Expr.WellFormedInitializer : Expr → Prop
  | value {e} : e.WellFormed → WellFormedInitializer e
  | fill {l value count} : value.WellFormed → count.WellFormed → WellFormedInitializer (.fill l value count)

/-- A statement of the grammar: an instruction has an argument if and only if its mnemonic takes one, what is declared
is an identifier, and a region has an initializer. -/
inductive Statement.WellFormed : Statement → Prop
  | nullary {l name m} : InstructionSet.byName? name = some m → m.takesArgument = false →
      WellFormed (.instruction l name none)
  | unary {l name m e} : InstructionSet.byName? name = some m → m.takesArgument = true → e.WellFormed →
      WellFormed (.instruction l name (some e))
  | label {l name} : isLabelName name = true → WellFormed (.label l name)
  | constant {l name e} : isIdentifier name = true → e.WellFormed → WellFormed (.constant l name e)
  | region {l name type initializers} : isIdentifier name = true → initializers ≠ [] →
      (∀ e ∈ initializers, e.WellFormedInitializer) → WellFormed (.region l name type initializers)
  | embedding {l name path} : isIdentifier name = true → WellFormed (.embedding l name path)

/-! ## What yields the tokens of a text is well formed -/

theorem Terminal.Denotes.bounds {t : Terminal} {v : Int} (h : t.Denotes v) :
    Numeral.least ≤ v ∧ v ≤ Numeral.greatest := by
  unfold Denotes at h
  split at h
  · exact h.2
  · obtain ⟨c, -, rfl⟩ := h
    have hc : c.toNat < 2 ^ 32 := UInt32.toNat_lt c.val
    unfold Numeral.least Numeral.greatest
    omega
  · exact h.elim

theorem SizeofTarget.Yields.wellFormed {target : SizeofTarget} {t : Terminal} (h : target.Yields t)
    (ht : t.IsProper) (l : Option Location) : (Expr.sizeof l target).WellFormed := by
  cases target with
  | name place n =>
    obtain ⟨hplain, rfl⟩ := h
    exact .sizeofName (ht.isIdentifier hplain)
  | type place ty => exact .sizeofType l place ty

mutual

theorem Expr.Yields.wellFormed : ∀ {e : Expr} {ts : List Terminal}, e.Yields ts → (∀ t ∈ ts, t.IsProper) →
    e.WellFormed
  | .integer .., _, h, _ => by
    obtain ⟨t, ht, -⟩ := h
    exact .integer ht.bounds.1 ht.bounds.2
  | .float l bits, _, _, _ => .float l bits
  | .string l text, _, _, _ => .string l text
  | .name .., _, h, hts => by
    obtain ⟨hplain, rfl⟩ := h
    exact .name ((hts _ (by simp)).isIdentifier hplain)
  | .type l t, _, _, _ => .type l t
  | .apply .., _, h, hts => by
    obtain ⟨o, body, rfl, hbody, rfl⟩ := h
    exact .apply (Expr.YieldAll.wellFormed hbody fun t ht => hts t (by simp [ht]))
  | .sizeof l .., _, h, hts => by
    obtain ⟨t, ht, rfl⟩ := h
    exact ht.wellFormed (hts t (by simp)) l
  | .fill .., _, h, _ | .foreign .., _, h, _ => h.elim

theorem Expr.YieldAll.wellFormed : ∀ {es : List Expr} {ts : List Terminal}, Expr.YieldAll es ts →
    (∀ t ∈ ts, t.IsProper) → ∀ e ∈ es, e.WellFormed
  | [], _, _, _ => by simp
  | e :: es, _, h, hts => by
    obtain ⟨head, tail, he, hes, rfl⟩ := h
    obtain ⟨hhead, htail⟩ := List.forall_mem_append.1 hts
    exact List.forall_mem_cons.2 ⟨Expr.Yields.wellFormed he hhead, Expr.YieldAll.wellFormed hes htail⟩

end

theorem Expr.InitializerYields.wellFormed {e : Expr} {ts : List Terminal} (h : e.InitializerYields ts)
    (hts : ∀ t ∈ ts, t.IsProper) : e.WellFormedInitializer := by
  cases e with
  | fill l value count =>
    obtain ⟨head, tail, hvalue, hcount, rfl⟩ := h
    simp only [List.forall_mem_append, List.forall_mem_cons] at hts
    exact .fill (hvalue.wellFormed hts.1) (hcount.wellFormed hts.2.2)
  | _ => exact .value (Expr.Yields.wellFormed h hts)

theorem Expr.InitializersYield.wellFormed : ∀ {es : List Expr} {ts : List Terminal}, Expr.InitializersYield es ts →
    (∀ t ∈ ts, t.IsProper) → es ≠ [] ∧ ∀ e ∈ es, e.WellFormedInitializer
  | [e], _, h, hts => ⟨by simp, by simpa using Expr.InitializerYields.wellFormed h hts⟩
  | e :: f :: es, _, h, hts => by
    obtain ⟨head, tail, he, hes, rfl⟩ := h
    simp only [List.forall_mem_append, List.forall_mem_cons] at hts
    exact ⟨by simp, List.forall_mem_cons.2 ⟨he.wellFormed hts.1, (Expr.InitializersYield.wellFormed hes hts.2.2).2⟩⟩

/-- A statement that is read from names and labels as source text spells them is well formed. -/
theorem Statement.Yields.wellFormed {s : Statement} {ts : List Terminal} (h : s.Yields ts)
    (hts : ∀ t ∈ ts, t.IsProper) : s.WellFormed := by
  have hpush : InstructionSet.byName? InstructionSet.push = some ⟨InstructionSet.push, 0x10, true⟩ := by decide +kernel
  cases s with
  | instruction l name argument =>
    cases argument with
    | none =>
      obtain ⟨⟨m, hm, harity⟩, -⟩ := h
      exact .nullary hm harity
    | some e =>
      rcases h with ⟨m, body, hm, harity, he, rfl⟩ | ⟨rfl, he, -⟩
      · exact .unary hm harity (he.wellFormed (List.forall_mem_cons.1 hts).2)
      · exact .unary hpush rfl (he.wellFormed hts)
  | label l name =>
    obtain rfl : ts = [.label name] := h
    have hname : (Terminal.label name).IsProper := hts _ (by simp)
    exact .label hname
  | constant l name e =>
    obtain ⟨body, hplain, he, rfl⟩ := h
    simp only [List.forall_mem_cons] at hts
    exact .constant (hts.2.1.isIdentifier hplain) (he.wellFormed hts.2.2.2)
  | region l name type initializers =>
    obtain ⟨body, hplain, hes, rfl⟩ := h
    simp only [List.forall_mem_cons] at hts
    obtain ⟨hne, hall⟩ := hes.wellFormed hts.2.2.2.2
    exact .region (hts.2.1.isIdentifier hplain) hne hall
  | embedding l name path =>
    obtain ⟨hplain, rfl⟩ := h
    simp only [List.forall_mem_cons] at hts
    exact .embedding (hts.2.1.isIdentifier hplain)
  | foreign l kind => exact h.elim

/-! ## Reading -/

/-- Every statement of a program that is read is well formed, also if faults were recorded on the way. -/
theorem Program.read_wellFormed (env : Surroundings) (file text : String) (j : Journal) :
    Leads (Program.read env file text) j (fun p _ => ∀ s ∈ p.statements, s.WellFormed) fun _ _ => True := by
  refine (read_comes env file text j).mono (fun p _ h s hs => ?_) fun _ _ _ => trivial
  obtain ⟨name, source, -, used, hpart, hyields, -⟩ := h s hs
  refine hyields.wellFormed fun u hu => ?_
  obtain ⟨t, ht, rfl⟩ := List.mem_map.1 hu
  exact tokenize_isProper name source t (hpart.mem ht)

end AvmAssembler
