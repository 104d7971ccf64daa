import AvmAssembler.Proofs.Source.Vocabulary

/-! # What is read is derived

Readers neither lose nor invent tokens: the value that a reader gives yields exactly the tokens that were used up. A
reader is described by its outcome. Where it gives a value, the tokens ahead are the used ones and those that are left,
and if none is left, the text ends well. Where it refuses, the fault is one of the text, and what is left is an end of
the tokens ahead. Where a numeral is unreadable, it is a token ahead.
-/

namespace AvmAssembler

/-! ## Outcomes -/

/-- The fault is one of the text: a malformed lexeme, or tokens that are no phrase of the grammar. -/
def Fault.IsSyntactic (f : Fault) : Prop :=
  match f.cause with
  | .lexical _ | .unexpected .. | .unclosedForm _ | .wideInteger _ | .unknownMnemonic _ => True
  | _ => False

def Ending.IsComplete (ending : Ending) : Prop := ∃ l, ending = .complete l

namespace Outcome

variable {α : Type}

/-- The outcome describes the tokens ahead: `R` relates a value to the tokens that were used up for it. -/
def Meets (ending : Ending) (R : α → List Token → Prop) (tokens : List Token) : Outcome α → Prop
  | read a rest => ∃ used, tokens = used ++ rest ∧ R a used ∧ (rest = [] → ending.IsComplete)
  | refused fault rest => rest <:+ tokens ∧ fault.IsSyntactic
  | unreadable e => ∃ t ∈ tokens, t.FailsWith e

theorem Meets.mono {ending : Ending} {R R' : α → List Token → Prop} {tokens : List Token} {o : Outcome α}
    (h : o.Meets ending R tokens) (hR : ∀ a used, R a used → R' a used) : o.Meets ending R' tokens := by
  cases o with
  | read a rest =>
    obtain ⟨used, heq, hused, hend⟩ := h
    exact ⟨used, heq, hR a used hused, hend⟩
  | refused fault rest => exact h
  | unreadable e => exact h

/-- The tokens that are used up come first. -/
theorem Meets.after_start {ending : Ending} {R : α → List Token → Prop} {tokens : List Token} {o : Outcome α}
    (h : o.Meets ending R tokens) : o.Meets ending (fun a used => used <+: tokens ∧ R a used) tokens := by
  cases o with
  | read a rest =>
    obtain ⟨used, rfl, hused, hend⟩ := h
    exact ⟨used, rfl, ⟨List.prefix_append used rest, hused⟩, hend⟩
  | refused fault rest => exact h
  | unreadable e => exact h

end Outcome

namespace Phrase

variable {α β : Type} {ending : Ending} {tokens : List Token} {R : α → List Token → Prop} {R' : β → List Token → Prop}

theorem refuse_meets {fault : Fault} (h : fault.IsSyntactic) :
    (refuse fault : Phrase α tokens).val.Meets ending R tokens :=
  ⟨List.suffix_refl tokens, h⟩

theorem map_meets {p : Phrase α tokens} (h : p.val.Meets ending R tokens) {f : α → β}
    (hf : ∀ a used, R a used → R' (f a) used) : (p.map f).val.Meets ending R' tokens := by
  obtain ⟨o, ho⟩ := p
  cases o with
  | read a rest =>
    obtain ⟨used, heq, hused, hend⟩ := h
    exact ⟨used, heq, hf a used hused, hend⟩
  | refused fault rest => exact h
  | unreadable e => exact h

theorem bind_meets {p : Phrase α tokens}
    {f : α → (rest : List Token) → rest.length < tokens.length → Phrase β rest} (h : p.val.Meets ending R tokens)
    (hf : ∀ a used rest hlt, tokens = used ++ rest → R a used →
      (f a rest hlt).val.Meets ending (fun b more => R' b (used ++ more)) rest) :
    (p.bind f).val.Meets ending R' tokens := by
  obtain ⟨o, ho⟩ := p
  cases o with
  | read a rest =>
    obtain ⟨used, rfl, hused, -⟩ := h
    have hnext := hf a used rest ho rfl hused
    change (f a rest ho).val.Meets ending R' (used ++ rest)
    cases hval : (f a rest ho).val with
    | read b after =>
      rw [hval] at hnext
      obtain ⟨more, rfl, hmore, hend⟩ := hnext
      exact ⟨used ++ more, by rw [List.append_assoc], hmore, hend⟩
    | refused fault after =>
      rw [hval] at hnext
      exact ⟨hnext.1.trans (List.suffix_append used rest), hnext.2⟩
    | unreadable e =>
      rw [hval] at hnext
      obtain ⟨t, ht, he⟩ := hnext
      exact ⟨t, List.mem_append_right used ht, he⟩
  | refused fault rest => exact h
  | unreadable e => exact h

theorem bindIf_meets {p : Phrase α tokens} {continues : List Token → Bool}
    {f : α → (rest : List Token) → rest.length < tokens.length → Phrase β rest} {finish : α → β}
    (h : p.val.Meets ending R tokens)
    (hf : ∀ a used rest hlt, tokens = used ++ rest → R a used →
      (f a rest hlt).val.Meets ending (fun b more => R' b (used ++ more)) rest)
    (hfinish : ∀ a used, R a used → R' (finish a) used) : (p.bindIf continues f finish).val.Meets ending R' tokens := by
  obtain ⟨o, ho⟩ := p
  cases o with
  | read a rest =>
    simp only [bindIf]
    split
    · exact bind_meets h hf
    · exact map_meets (p := ⟨.read a rest, ho⟩) h hfinish
  | refused fault rest => exact h
  | unreadable e => exact h

theorem check_meets {p : Phrase α tokens} {f : α → Except (Fault ⊕ NumeralError) β} (h : p.val.Meets ending R tokens)
    (hok : ∀ a used b, R a used → f a = .ok b → R' b used)
    (hfault : ∀ a used fault, R a used → f a = .error (.inl fault) → fault.IsSyntactic)
    (hnumeral : ∀ a used e, R a used → f a = .error (.inr e) → ∃ t ∈ used, t.FailsWith e) :
    (p.check f).val.Meets ending R' tokens := by
  obtain ⟨o, ho⟩ := p
  cases o with
  | read a rest =>
    obtain ⟨used, rfl, hused, hend⟩ := h
    simp only [check]
    split
    · rename_i b hb
      exact ⟨used, rfl, hok a used b hused hb, hend⟩
    · rename_i fault hb
      exact ⟨List.suffix_append used rest, hfault a used fault hused hb⟩
    · rename_i e hb
      obtain ⟨t, ht, he⟩ := hnumeral a used e hused hb
      exact ⟨t, List.mem_append_left rest ht, he⟩
  | refused fault rest => exact h
  | unreadable e => exact h

end Phrase

namespace Grammar

abbrev Regular (tokens : List Token) : Prop := ∀ t ∈ tokens, t.IsRegular

variable {ending : Ending} {tokens rest : List Token} {t : Token}

theorem take_meets (ending : Ending) (t : Token) (rest : List Token) :
    (take ending t rest).val.Meets ending (fun u used => u = t ∧ used = [t]) (t :: rest) := by
  unfold take
  split
  · exact ⟨List.nil_suffix, trivial⟩
  · rename_i hnot
    refine ⟨[t], rfl, ⟨rfl, rfl⟩, fun hrest => ?_⟩
    cases hending : ending with
    | complete l => exact ⟨l, rfl⟩
    | malformed f l => exact absurd hending (hnot f l hrest)

theorem take_fault {fault : Fault} {left : List Token} (h : (take ending t rest).val = .refused fault left) :
    fault.isFatal = true ∧ fault.IsSyntactic := by
  unfold take at h
  split at h
  · cases h
    exact ⟨rfl, trivial⟩
  · cases h

theorem accept_meets {test : Token → Bool} {fault : Fault} (h : fault.IsSyntactic) :
    (accept ending test fault tokens).val.Meets ending
      (fun u used => used = [u] ∧ u ∈ tokens ∧ test u = true) tokens := by
  unfold accept
  split
  · rename_i t rest
    split
    · rename_i htest
      refine (take_meets ending t rest).mono ?_
      rintro u used ⟨rfl, rfl⟩
      exact ⟨rfl, by simp, htest⟩
    · exact Phrase.refuse_meets h
  · exact Phrase.refuse_meets h

theorem expect_meets (expected : Expected) {test : Token → Bool} :
    (expect ending expected test tokens).val.Meets ending
      (fun u used => used = [u] ∧ u ∈ tokens ∧ test u = true) tokens :=
  accept_meets (by trivial)

/-! ## Expressions -/

theorem atom_yields {e : Expr} (hregular : t.IsRegular) (hparen : t.kind ≠ .openParen)
    (hstart : startsExpression t = true) (h : atom t = .ok e) : e.Yields [t.terminal] := by
  unfold atom at h
  split at h
  · rename_i radix hkind
    unfold integerLiteral at h
    split at h
    · cases h
    · rename_i v hv
      split at h
      · rename_i hrange
        cases h
        refine ⟨t.terminal, ?_, rfl⟩
        simpa [Terminal.Denotes, hkind] using ⟨hv, hrange⟩
      · cases h
  · rename_i hkind
    split at h
    · rename_i bits hbits
      cases h
      exact ⟨t.text, hbits, by simp [Token.terminal, hkind]⟩
    · cases h
  · rename_i hkind
    cases h
    unfold Token.IsRegular at hregular
    rw [hkind] at hregular
    obtain ⟨c, hc⟩ := hregular
    refine ⟨t.terminal, ?_, rfl⟩
    simp only [Terminal.Denotes, Token.terminal_kind, hkind, Token.terminal_text]
    exact ⟨c, by rw [← hc, String.ofList_toList], by simp [hc]⟩
  · rename_i hkind
    cases h
    simp [Expr.Yields, Token.terminal, Terminal.string, hkind]
  · rename_i ty hkind
    cases h
    have hterminal : t.terminal = .type ty := hregular.terminal_eq hkind fun _ h => h
    simp [Expr.Yields, hterminal]
  · rename_i hinteger hfloat hcharacter hstring htype
    cases h
    have hname : t.kind = .name ∧ InstructionSet.isMnemonic t.text = false := by
      unfold startsExpression at hstart
      split at hstart <;> simp_all
    exact ⟨hname.2, by simp [Token.terminal, Terminal.name, hname.1]⟩

theorem atom_fault {fault : Fault} (h : atom t = .error (.inl fault)) : fault.IsSyntactic := by
  unfold atom at h
  split at h
  · unfold integerLiteral at h
    split at h
    · cases h
    · split at h
      · cases h
      · cases h
        trivial
  · split at h <;> cases h
  all_goals cases h

theorem atom_unreadable {e : NumeralError} (h : atom t = .error (.inr e)) : t.FailsWith e := by
  unfold atom at h
  split at h
  · rename_i radix hkind
    unfold integerLiteral at h
    split at h
    · rename_i hread
      cases h
      exact .inl ⟨radix, hkind, hread⟩
    · split at h <;> cases h
  · rename_i hkind
    split at h
    · cases h
    · rename_i hread
      cases h
      exact .inr ⟨hkind, hread⟩
  all_goals cases h

theorem Regular.right {used : List Token} (h : Regular tokens) (heq : tokens = used ++ rest) : Regular rest :=
  fun t ht => h t (heq ▸ List.mem_append_right used ht)

/-- A token of a kind with one spelling is used up as the terminal of that spelling. -/
theorem accept_terminal {test : Token → Bool} {fault : Fault} (terminal : Terminal) (hregular : Regular tokens)
    (hfault : fault.IsSyntactic) (htest : ∀ t, test t = true → t.kind = terminal.kind)
    (hspelling : ∀ text, terminal.kind.Admits text → text = terminal.text.toList) :
    (accept ending test fault tokens).val.Meets ending (fun _ used => used.map Token.terminal = [terminal]) tokens := by
  refine (accept_meets hfault).mono ?_
  rintro u _ ⟨rfl, hmem, hu⟩
  simp [(hregular u hmem).terminal_eq (htest u hu) hspelling]

theorem closing_meets (opened : Location) (hregular : Regular tokens) :
    (closing ending opened tokens).val.Meets ending
      (fun _ used => used.map Token.terminal = [.closeParen]) tokens :=
  accept_terminal _ hregular (by trivial) (fun _ h => of_decide_eq_true h) fun _ h => h

theorem sizeofTarget_meets (hregular : Regular tokens) :
    (sizeofTarget ending tokens).val.Meets ending
      (fun target used => ∃ u, target.Yields u ∧ used.map Token.terminal = [u]) tokens := by
  unfold sizeofTarget
  split
  · rename_i t rest
    split
    · rename_i ty hkind
      refine Phrase.map_meets (take_meets ending t rest) ?_
      rintro u used ⟨rfl, rfl⟩
      have hterminal : u.terminal = .type ty := (hregular u (by simp)).terminal_eq hkind fun _ h => h
      exact ⟨.type ty, rfl, by simp [hterminal]⟩
    · refine Phrase.map_meets (expect_meets .identifier) ?_
      rintro u used ⟨rfl, -, hplain⟩
      simp only [isPlainName, Bool.and_eq_true, decide_eq_true_eq, Bool.not_eq_true'] at hplain
      exact ⟨.name u.text, ⟨hplain.2, rfl⟩, by simp [Token.terminal, Terminal.name, hplain.1]⟩
    · exact Phrase.refuse_meets (by trivial)
  · exact Phrase.refuse_meets (by trivial)

mutual

theorem expression_meets (ending : Ending) (tokens : List Token) (hregular : Regular tokens) :
    (expression ending tokens).val.Meets ending (fun e used => e.Yields (used.map Token.terminal)) tokens := by
  match tokens with
  | [] =>
    rw [expression]
    exact Phrase.refuse_meets (by trivial)
  | t :: rest =>
    rw [expression]
    have ht : t.IsRegular := hregular t (by simp)
    by_cases hparen : t.kind = .openParen
    · simp only [if_pos hparen]
      refine Phrase.bind_meets (take_meets ending t rest) ?_
      rintro _ _ inner hlt heq ⟨-, rfl⟩
      refine (form_meets ending t.location inner (hregular.right heq)).mono ?_
      intro e more he
      have hterminal : t.terminal = .openParen := ht.terminal_eq hparen fun _ h => h
      simpa [hterminal] using he
    · by_cases hstart : startsExpression t = true
      · simp only [if_neg hparen, if_pos hstart]
        refine Phrase.check_meets (take_meets ending t rest) ?_ ?_ ?_
        · rintro u _ e ⟨hu, rfl⟩ he
          exact atom_yields ht hparen hstart (hu ▸ he)
        · rintro u _ fault - he
          exact atom_fault he
        · rintro u _ e ⟨hu, rfl⟩ he
          exact ⟨t, by simp, atom_unreadable (hu ▸ he)⟩
      · simp only [if_neg hparen, if_neg hstart]
        exact Phrase.refuse_meets (by trivial)
termination_by (tokens.length, 0)

theorem form_meets (ending : Ending) (opened : Location) (tokens : List Token) (hregular : Regular tokens) :
    (form ending opened tokens).val.Meets ending
      (fun e used => e.Yields (.openParen :: used.map Token.terminal)) tokens := by
  match tokens with
  | [] =>
    rw [form]
    exact Phrase.refuse_meets (by trivial)
  | t :: rest =>
    rw [form]
    have ht : t.IsRegular := hregular t (by simp)
    split
    · rename_i hkind
      have hterminal : t.terminal = .keyword .sizeof := ht.terminal_eq hkind fun _ h => h
      refine Phrase.bind_meets (take_meets ending t rest) ?_
      rintro _ _ inner - heq ⟨-, rfl⟩
      refine Phrase.bind_meets (sizeofTarget_meets (hregular.right heq)) ?_
      rintro target used after - heq' ⟨u, htarget, hused⟩
      refine Phrase.map_meets (closing_meets opened ((hregular.right heq).right heq')) ?_
      intro _ more hmore
      exact ⟨u, htarget, by simp [hterminal, hused, hmore]⟩
    · rename_i operator hkind
      have hterminal : t.terminal = .operator operator := ht.terminal_eq hkind fun _ h => h
      refine Phrase.bind_meets (take_meets ending t rest) ?_
      rintro _ _ inner hlt heq ⟨-, rfl⟩
      refine Phrase.map_meets (operands_meets ending opened inner (hregular.right heq)) ?_
      rintro es used ⟨body, hbody, hused⟩
      exact ⟨operator, body, rfl, hbody, by simp [hterminal, hused]⟩
    · exact Phrase.refuse_meets (by trivial)
termination_by (tokens.length, 0)

/-- Operands yield the tokens they were read from, but for the closing parenthesis. -/
theorem operands_meets (ending : Ending) (opened : Location) (tokens : List Token) (hregular : Regular tokens) :
    (operands ending opened tokens).val.Meets ending
      (fun es used => ∃ body, Expr.YieldAll es body ∧ used.map Token.terminal = body ++ [.closeParen]) tokens := by
  rw [operands]
  split
  · refine Phrase.bind_meets (expression_meets ending tokens hregular) ?_
    intro e used rest hlt heq he
    refine Phrase.map_meets (operands_meets ending opened rest (hregular.right heq)) ?_
    rintro es more ⟨body, hbody, hmore⟩
    exact ⟨used.map Token.terminal ++ body, ⟨_, body, he, hbody, rfl⟩, by simp [hmore]⟩
  · refine Phrase.map_meets (closing_meets opened hregular) ?_
    intro _ used hused
    exact ⟨[], rfl, hused⟩
termination_by (tokens.length, 1)

end

/-! ## Statements -/

theorem initializerYields_of_yields {e : Expr} {ts : List Terminal} (h : e.Yields ts) : e.InitializerYields ts := by
  cases e with
  | fill => exact h.elim
  | _ => exact h

theorem initializer_meets (ending : Ending) (tokens : List Token) (hregular : Regular tokens) :
    (initializer ending tokens).val.Meets ending (fun e used => e.InitializerYields (used.map Token.terminal))
      tokens := by
  refine Phrase.bindIf_meets (expression_meets ending tokens hregular) ?_ fun _ _ h => initializerYields_of_yields h
  intro value used rest _ heq hvalue
  have hrest : Regular rest := hregular.right heq
  refine Phrase.bind_meets (accept_terminal .fill hrest (by trivial)
    (fun _ h => of_decide_eq_true h) fun _ h => h) ?_
  intro _ sign after _ heq' hsign
  refine Phrase.map_meets (expression_meets ending after (hrest.right heq')) ?_
  intro count more hcount
  exact ⟨_, _, hvalue, hcount, by simp [hsign]⟩

theorem initializers_meets (ending : Ending) (tokens : List Token) (hregular : Regular tokens) :
    (initializers ending tokens).val.Meets ending (fun es used => Expr.InitializersYield es (used.map Token.terminal))
      tokens := by
  rw [initializers]
  refine Phrase.bindIf_meets (initializer_meets ending tokens hregular) ?_ fun _ _ h => h
  intro value used rest _ heq hvalue
  have hrest : Regular rest := hregular.right heq
  refine Phrase.bind_meets (accept_terminal .comma hrest (by trivial)
    (fun _ h => of_decide_eq_true h) fun _ h => h) ?_
  intro _ sign after _ heq' hsign
  refine Phrase.map_meets (initializers_meets ending after (hrest.right heq')) ?_
  intro es more hes
  cases es with
  | nil => exact hes.elim
  | cons e es => exact ⟨_, _, hvalue, hes, by simp [hsign]⟩
termination_by tokens.length

theorem declaredName_meets :
    (declaredName ending tokens).val.Meets ending
      (fun n used => IsPlainName n ∧ used.map Token.terminal = [.name n]) tokens := by
  refine Phrase.map_meets (expect_meets .identifier) ?_
  rintro u _ ⟨rfl, -, hplain⟩
  simp only [isPlainName, Bool.and_eq_true, decide_eq_true_eq, Bool.not_eq_true'] at hplain
  exact ⟨hplain.2, by simp [Token.terminal, Terminal.name, hplain.1]⟩

theorem elementType_meets (hregular : Regular tokens) :
    (elementType ending tokens).val.Meets ending (fun ty used => used.map Token.terminal = [.type ty]) tokens := by
  refine Phrase.map_meets (expect_meets .type) ?_
  rintro u _ ⟨rfl, hmem, htype⟩
  obtain ⟨ty, hty⟩ := Option.isSome_iff_exists.1 htype
  have hkind : u.kind = .type ty := by
    unfold typeOf? at hty
    split at hty
    · rename_i hkind
      cases hty
      exact hkind
    · cases hty
  have hterminal : u.terminal = .type ty := (hregular u hmem).terminal_eq hkind fun _ h => h
  simp [hterminal, hty]

theorem equals_meets (hregular : Regular tokens) :
    (equals ending tokens).val.Meets ending (fun _ used => used.map Token.terminal = [.equals]) tokens :=
  accept_terminal _ hregular (by trivial) (fun _ h => of_decide_eq_true h) fun _ h => h

theorem filePath_meets :
    (filePath ending tokens).val.Meets ending (fun p used => used.map Token.terminal = [.string p.text]) tokens := by
  refine (expect_meets .filePath).mono ?_
  rintro u _ ⟨rfl, -, hkind⟩
  simp [Token.terminal, Terminal.string, of_decide_eq_true hkind]

/-- The tokens of an item: what its statement yields, or an inclusion. -/
def Item.Yields : Item → List Token → Prop
  | .statement s, used => s.Yields (used.map Token.terminal)
  | .inclusion _ path _, used => used.map Token.terminal = [.keyword .inclusion, .string path]

theorem item_meets (ending : Ending) (t : Token) (rest : List Token) (hregular : Regular (t :: rest)) :
    (item ending t rest).val.Meets ending Item.Yields (t :: rest) := by
  have ht : t.IsRegular := hregular t (by simp)
  have hrest : Regular rest := fun u hu => hregular u (List.mem_cons_of_mem t hu)
  unfold item
  split
  · rename_i hkind
    have hterminal : t.terminal = .name t.text := by simp [Token.terminal, Terminal.name, hkind]
    split
    · exact Phrase.refuse_meets (by trivial)
    · rename_i m hname
      split
      · rename_i harity
        refine Phrase.bind_meets (take_meets ending t rest) ?_
        rintro _ _ inner - heq ⟨-, rfl⟩
        refine Phrase.map_meets (expression_meets ending inner (hregular.right heq)) ?_
        intro e used he
        exact .inl ⟨m, _, hname, harity, he, by simp [hterminal]⟩
      · rename_i harity
        refine Phrase.map_meets (take_meets ending t rest) ?_
        rintro u _ ⟨rfl, rfl⟩
        exact ⟨⟨m, hname, by simpa using harity⟩, by simp [hterminal]⟩
  · rename_i hkind
    refine Phrase.map_meets (take_meets ending t rest) ?_
    rintro u _ ⟨rfl, rfl⟩
    simp [Item.Yields, Statement.Yields, Token.terminal, Terminal.label, hkind]
  · rename_i hkind
    have hterminal : t.terminal = .keyword .declareVariable := ht.terminal_eq hkind fun _ h => h
    refine Phrase.bind_meets (take_meets ending t rest) ?_
    rintro _ _ r₁ - h₁ ⟨-, rfl⟩
    refine Phrase.bind_meets declaredName_meets ?_
    rintro name n r₂ - h₂ ⟨hplain, hn⟩
    refine Phrase.bind_meets (elementType_meets ((hregular.right h₁).right h₂)) ?_
    intro ty word r₃ _ h₃ hword
    have h₃' : Regular r₃ := ((hregular.right h₁).right h₂).right h₃
    refine Phrase.bind_meets (equals_meets h₃') ?_
    intro _ sign r₄ _ h₄ hsign
    refine Phrase.map_meets (initializers_meets ending r₄ (h₃'.right h₄)) ?_
    intro es used hes
    exact ⟨_, hplain, hes, by simp [hterminal, hn, hword, hsign]⟩
  · rename_i hkind
    have hterminal : t.terminal = .keyword .declareConstant := ht.terminal_eq hkind fun _ h => h
    refine Phrase.bind_meets (take_meets ending t rest) ?_
    rintro _ _ r₁ - h₁ ⟨-, rfl⟩
    refine Phrase.bind_meets declaredName_meets ?_
    rintro name n r₂ - h₂ ⟨hplain, hn⟩
    have h₂' : Regular r₂ := (hregular.right h₁).right h₂
    refine Phrase.bind_meets (equals_meets h₂') ?_
    intro _ sign r₃ _ h₃ hsign
    refine Phrase.map_meets (expression_meets ending r₃ (h₂'.right h₃)) ?_
    intro e used he
    exact ⟨_, hplain, he, by simp [hterminal, hn, hsign]⟩
  · rename_i hkind
    have hterminal : t.terminal = .keyword .embedding := ht.terminal_eq hkind fun _ h => h
    refine Phrase.bind_meets (take_meets ending t rest) ?_
    rintro _ _ r₁ - - ⟨-, rfl⟩
    refine Phrase.bind_meets declaredName_meets ?_
    rintro name n r₂ - - ⟨hplain, hn⟩
    refine Phrase.map_meets filePath_meets ?_
    intro p used hp
    exact ⟨hplain, by simp [hterminal, hn, hp]⟩
  · rename_i hkind
    have hterminal : t.terminal = .keyword .inclusion := ht.terminal_eq hkind fun _ h => h
    refine Phrase.bind_meets (take_meets ending t rest) ?_
    rintro _ _ r₁ - - ⟨-, rfl⟩
    refine Phrase.map_meets filePath_meets ?_
    intro p used hp
    simp [Item.Yields, hterminal, hp]
  · rename_i hname _ _ _ _ _
    split
    · refine Phrase.map_meets (expression_meets ending (t :: rest) hregular).after_start ?_
      rintro e used ⟨hstart, he⟩
      refine .inr ⟨rfl, he, ?_⟩
      -- The expression starts with the token of the item, which is no name.
      cases used with
      | nil => simp
      | cons u used =>
        obtain ⟨rfl, -⟩ := List.cons_prefix_cons.1 hstart
        simpa using hname
    · exact Phrase.refuse_meets (by trivial)

end Grammar

end AvmAssembler
