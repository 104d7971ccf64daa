import AvmAssembler.Proofs.Outcome
import AvmAssembler.Proofs.Source.Derivation
import AvmAssembler.Proofs.Source.Items

/-! # Derivations are read

Whatever a tree yields is read back as that tree, whatever comes after it. One token of lookahead is enough: an
expression ends with its own last token, and no statement starts with a token that could go on with the statement
before it.
-/

namespace AvmAssembler

/-! ## Steps of a reader -/

namespace Phrase

variable {α β : Type} {tokens rest after : List Token} {a : α} {b : β}

theorem map_read {p : Phrase α tokens} (h : p.val = .read a rest) (f : α → β) :
    (p.map f).val = .read (f a) rest := by
  obtain ⟨o, ho⟩ := p
  subst h
  rfl

theorem bind_read {p : Phrase α tokens}
    {f : α → (rest : List Token) → rest.length < tokens.length → Phrase β rest}
    (h : p.val = .read a rest) (hf : ∀ hlt, (f a rest hlt).val = .read b after) :
    (p.bind f).val = .read b after := by
  obtain ⟨o, ho⟩ := p
  subst h
  exact hf ho

theorem bindIf_finish {p : Phrase α tokens} {continues : List Token → Bool}
    {f : α → (rest : List Token) → rest.length < tokens.length → Phrase β rest} {finish : α → β}
    (h : p.val = .read a rest) (hstop : continues rest = false) :
    (p.bindIf continues f finish).val = .read (finish a) rest := by
  obtain ⟨o, ho⟩ := p
  subst h
  simp [bindIf, hstop]

theorem bindIf_continue {p : Phrase α tokens} {continues : List Token → Bool}
    {f : α → (rest : List Token) → rest.length < tokens.length → Phrase β rest} {finish : α → β}
    (h : p.val = .read a rest) (hgo : continues rest = true)
    (hf : ∀ hlt, (f a rest hlt).val = .read b after) :
    (p.bindIf continues f finish).val = .read b after := by
  obtain ⟨o, ho⟩ := p
  subst h
  simp only [bindIf, hgo, if_true]
  exact bind_read rfl hf

theorem check_read {p : Phrase α tokens} {f : α → Except (Fault ⊕ NumeralError) β}
    (h : p.val = .read a rest) (hf : f a = .ok b) : (p.check f).val = .read b rest := by
  obtain ⟨o, ho⟩ := p
  subst h
  simp [check, hf]

end Phrase

namespace Grammar

variable {l : Location} {t : Token} {rest : List Token}

theorem take_read (l : Location) (t : Token) (rest : List Token) :
    (take (.complete l) t rest).val = .read t rest := by
  cases rest <;> rfl

theorem accept_read {test : Token → Bool} {fault : Fault} (h : test t = true) :
    (accept (.complete l) test fault (t :: rest)).val = .read t rest := by
  simp only [accept, h, if_true, take_read]

theorem expect_read {expected : Expected} {test : Token → Bool} (h : test t = true) :
    (expect (.complete l) expected test (t :: rest)).val = .read t rest :=
  accept_read h

/-! ## Expressions -/

theorem expression_atom {e : Expr} (hparen : t.kind ≠ .openParen) (hstart : startsExpression t = true)
    (hatom : atom t = .ok e) : (expression (.complete l) (t :: rest)).val = .read e rest := by
  rw [expression]
  simp only [hparen, hstart, if_true, if_false]
  exact Phrase.check_read (take_read l t rest) hatom

theorem expression_form {e : Expr} {inner : List Token} (hparen : t.kind = .openParen)
    (hform : (form (.complete l) t.location inner).val = .read e rest) :
    (expression (.complete l) (t :: inner)).val = .read e rest := by
  rw [expression]
  simp only [hparen, if_true]
  exact Phrase.bind_read (take_read l t inner) fun _ => hform

theorem form_operator {o : Operator} {opened : Location} {es : List Expr} {inner : List Token}
    (hoperator : t.kind = .operator o)
    (hoperands : (operands (.complete l) opened inner).val = .read es rest) :
    (form (.complete l) opened (t :: inner)).val =
      .read (.apply (some opened) (.known o) es) rest := by
  rw [form]
  simp only [hoperator]
  exact Phrase.bind_read (take_read l t inner) fun _ => Phrase.map_read hoperands _

theorem operands_nil {opened : Location} (hclose : t.kind = .closeParen) :
    (operands (.complete l) opened (t :: rest)).val = .read [] rest := by
  have hstop : expressionAhead (t :: rest) = false := by
    simp [expressionAhead, startsExpression, hclose]
  rw [operands]
  simp only [hstop, Bool.false_eq_true, if_false]
  exact Phrase.map_read (accept_read (by simp [hclose])) _

theorem operands_cons {opened : Location} {e : Expr} {es : List Expr} {tokens mid : List Token}
    (hahead : expressionAhead tokens = true)
    (hfirst : (expression (.complete l) tokens).val = .read e mid)
    (hrest : (operands (.complete l) opened mid).val = .read es rest) :
    (operands (.complete l) opened tokens).val = .read (e :: es) rest := by
  rw [operands]
  simp only [hahead, if_true]
  exact Phrase.bind_read hfirst fun _ => Phrase.map_read hrest _

theorem closing_read {opened : Location} (hclose : t.kind = .closeParen) :
    (closing (.complete l) opened (t :: rest)).val = .read t rest :=
  accept_read (by simp [hclose])

theorem sizeofTarget_read {target : SizeofTarget} (h : target.Yields t.terminal) (rest : List Token) :
    ∃ target', (sizeofTarget (.complete l) (t :: rest)).val = .read target' rest ∧
      target'.unlocated = target.unlocated := by
  cases target with
  | name location n =>
    obtain ⟨hplain, ht⟩ := h
    obtain ⟨hkind, htext⟩ : t.kind = .name ∧ t.text = n := by
      simpa [Token.terminal, Terminal.name] using ht
    refine ⟨.name (some t.location) n, ?_, rfl⟩
    have hread : (expect (.complete l) .identifier isPlainName (t :: rest)).val = .read t rest :=
      expect_read (by simp [isPlainName, hkind, htext, hplain.isMnemonic_eq])
    simp only [sizeofTarget, hkind]
    rw [Phrase.map_read hread, htext]
  | type location ty =>
    have hkind : t.kind = .type ty := congrArg Terminal.kind h
    refine ⟨.type (some t.location) ty, ?_, rfl⟩
    simp only [sizeofTarget, hkind]
    rw [Phrase.map_read (take_read l t rest)]

theorem form_sizeof {opened : Location} {target : SizeofTarget} {u close : Token}
    (hkeyword : t.kind = .keyword .sizeof) (hclose : close.kind = .closeParen)
    (htarget : (sizeofTarget (.complete l) (u :: close :: rest)).val =
      .read target (close :: rest)) :
    (form (.complete l) opened (t :: u :: close :: rest)).val =
      .read (.sizeof (some opened) target) rest := by
  rw [form]
  simp only [hkeyword]
  refine Phrase.bind_read (take_read l t _) fun _ => ?_
  refine Phrase.bind_read htarget fun _ => ?_
  exact Phrase.map_read (closing_read hclose) _

end Grammar

/-! ## Expressions -/

theorem Terminal.Denotes.startsExpression {t : Terminal} {v : Int} (h : t.Denotes v) :
    t.startsExpression = true := by
  unfold Terminal.Denotes at h
  split at h <;> simp_all [Terminal.startsExpression, Grammar.startsExpression]

theorem Expr.Yields.starts {e : Expr} {ts : List Terminal} (h : e.Yields ts) :
    ∃ t rest, ts = t :: rest ∧ t.startsExpression = true := by
  cases e with
  | integer location v =>
    obtain ⟨t, ht, rfl⟩ := h
    exact ⟨t, [], rfl, ht.startsExpression⟩
  | float location bits =>
    obtain ⟨text, _, rfl⟩ := h
    exact ⟨_, _, rfl, rfl⟩
  | name location n =>
    obtain ⟨hplain, rfl⟩ := h
    exact ⟨_, _, rfl, by simp [Terminal.startsExpression, Grammar.startsExpression, Terminal.name, hplain.isMnemonic_eq]⟩
  | string location text | type location ty => exact ⟨_, _, h, rfl⟩
  | apply location sign operands =>
    obtain ⟨o, body, _, _, rfl⟩ := h
    exact ⟨_, _, rfl, rfl⟩
  | sizeof location target =>
    obtain ⟨t, _, rfl⟩ := h
    exact ⟨_, _, rfl, rfl⟩
  | fill location value count | foreign location kind => exact h.elim

/-- A single terminal that denotes an expression is read as that expression. -/
theorem Grammar.atom_integer {t : Token} {v : Int} (h : t.terminal.Denotes v) :
    Grammar.atom t = .ok (.integer (some t.location) v) := by
  unfold Terminal.Denotes at h
  split at h
  case h_1 radix hkind =>
    obtain ⟨hread, hrange⟩ := h
    simp only [Token.terminal_kind, Token.terminal_text] at hkind hread
    simp [atom, hkind, integerLiteral, hread, hrange]
  case h_2 hkind =>
    obtain ⟨c, htext, rfl⟩ := h
    simp only [Token.terminal_kind, Token.terminal_text] at hkind htext
    simp [atom, hkind, htext]
  case h_3 => exact h.elim

theorem Grammar.atom_name {t : Token} (h : t.kind = .name) :
    Grammar.atom t = .ok (.name (some t.location) t.text) := by
  simp [atom, h]

theorem Grammar.atom_string {t : Token} (h : t.kind = .string) :
    Grammar.atom t = .ok (.string (some t.location) t.text) := by
  simp [atom, h]

theorem Grammar.atom_type {t : Token} {ty : ElementType} (h : t.kind = .type ty) :
    Grammar.atom t = .ok (.type (some t.location) ty) := by
  simp [atom, h]

theorem Grammar.atom_float {t : Token} {bits : UInt64} (h : t.kind = .float)
    (htext : Numeral.float t.text = .ok bits) :
    Grammar.atom t = .ok (.float (some t.location) bits) := by
  simp [atom, h, htext]

/-- The expression of a single token other than a parenthesis. -/
theorem Expr.read_atom {e : Expr} {l : Location} {tokens rest : List Token} {t : Terminal}
    (hyields : e.Yields [t]) (htokens : tokens.map Token.terminal = [t]) (hparen : t.kind ≠ .openParen)
    (hatom : ∀ u : Token, u.terminal = t → ∃ e', Grammar.atom u = .ok e' ∧ e'.unlocated = e.unlocated) :
    ∃ e', (Grammar.expression (.complete l) (tokens ++ rest)).val = .read e' rest ∧
      e'.unlocated = e.unlocated := by
  obtain ⟨u, rfl, rfl⟩ := List.map_eq_singleton_iff.1 htokens
  obtain ⟨t, ts, heq, hstart⟩ := hyields.starts
  obtain ⟨rfl, rfl⟩ := List.cons.inj heq
  obtain ⟨e', he', hsame⟩ := hatom u rfl
  exact ⟨e', Grammar.expression_atom hparen hstart he', hsame⟩

/-- A text that is a lexeme of an expression by itself is read as the expression of this one token, or with its fault. -/
theorem Expr.read_of_spelledBy {t : Terminal} {w : List Char} (h : t.SpelledBy w) (hparen : t.kind ≠ .openParen)
    (hstart : t.startsExpression = true) :
    Expr.read (String.ofList w) = Grammar.atom
      ⟨t.kind, t.text, (Source.ofText FileTree.inputName (String.ofList w)).locate {} w.length⟩ := by
  obtain ⟨l, htokens⟩ := tokenize_of_spelledBy h FileTree.inputName
  generalize hu : (⟨t.kind, t.text, (Source.ofText FileTree.inputName (String.ofList w)).locate {} w.length⟩ : Token) = u
    at htokens ⊢
  have hkind : u.kind = t.kind := by rw [← hu]
  have hstart' : Grammar.startsExpression u = true := by
    rw [← hu]
    exact hstart
  have hexpression : (Grammar.expression (.complete l) [u]).val =
      ((Grammar.take (.complete l) u []).check Grammar.atom).val := by
    rw [Grammar.expression]
    simp only [hkind, hparen, hstart', if_true, if_false]
  simp only [Expr.read, htokens, hexpression]
  rcases hatom : Grammar.atom u with (fault | e) | e <;>
    simp [Grammar.take, Phrase.check, hatom]

theorem Grammar.expressionAhead_of_yields {e : Expr} {ts : List Terminal} {tokens : List Token}
    (rest : List Token) (h : e.Yields ts) (htokens : tokens.map Token.terminal = ts) :
    expressionAhead (tokens ++ rest) = true := by
  obtain ⟨t, ts, rfl, hstart⟩ := h.starts
  obtain ⟨u, us, rfl, rfl, -⟩ := List.map_eq_cons_iff.1 htokens
  exact hstart

mutual

/-- What an expression yields is read as that expression, whatever stands behind it. -/
theorem Expr.Yields.read {l : Location} (rest : List Token) : ∀ {e : Expr} {ts : List Terminal}
    {tokens : List Token}, e.Yields ts → tokens.map Token.terminal = ts →
    ∃ e', (Grammar.expression (.complete l) (tokens ++ rest)).val = .read e' rest ∧
      e'.unlocated = e.unlocated
  | .integer location v, ts, tokens, h, htokens => by
    have hyields := h
    obtain ⟨t, ht, rfl⟩ := h
    refine Expr.read_atom hyields htokens ?_ ?_
    · intro hkind
      simp [Terminal.Denotes, hkind] at ht
    · rintro u rfl
      exact ⟨_, Grammar.atom_integer ht, rfl⟩
  | .float location bits, ts, tokens, h, htokens => by
    have hyields := h
    obtain ⟨text, htext, rfl⟩ := h
    refine Expr.read_atom hyields htokens (by simp) fun u hu => ?_
    have hkind : u.kind = .float := congrArg Terminal.kind hu
    have hread : u.text = text := congrArg Terminal.text hu
    exact ⟨_, Grammar.atom_float hkind (hread ▸ htext), rfl⟩
  | .string location text, ts, tokens, h, htokens => by
    subst h
    refine Expr.read_atom (e := .string location text) rfl htokens (by simp [Terminal.string]) fun u hu => ?_
    have hkind : u.kind = .string := congrArg Terminal.kind hu
    have htext : u.text = text := congrArg Terminal.text hu
    exact ⟨_, Grammar.atom_string hkind, by simp [Expr.unlocated, htext]⟩
  | .name location n, ts, tokens, h, htokens => by
    have hyields := h
    obtain ⟨-, rfl⟩ := h
    refine Expr.read_atom hyields htokens (by simp [Terminal.name]) fun u hu => ?_
    have hkind : u.kind = .name := congrArg Terminal.kind hu
    have htext : u.text = n := congrArg Terminal.text hu
    exact ⟨_, Grammar.atom_name hkind, by simp [Expr.unlocated, htext]⟩
  | .type location ty, ts, tokens, h, htokens => by
    subst h
    refine Expr.read_atom (e := .type location ty) rfl htokens (by simp [Terminal.type]) fun u hu => ?_
    have hkind : u.kind = .type ty := congrArg Terminal.kind hu
    exact ⟨_, Grammar.atom_type hkind, rfl⟩
  | .apply location sign operands, ts, tokens, h, htokens => by
    obtain ⟨o, body, rfl, hbody, rfl⟩ := h
    obtain ⟨opening, us, rfl, hopening, hus⟩ := List.map_eq_cons_iff.1 htokens
    obtain ⟨symbol, vs, rfl, hsymbol, hvs⟩ := List.map_eq_cons_iff.1 hus
    obtain ⟨es, hes, hsame⟩ := hbody.read rest hvs
    have hparen : opening.kind = .openParen := congrArg Terminal.kind hopening
    have hoperator : symbol.kind = .operator o := congrArg Terminal.kind hsymbol
    refine ⟨.apply (some opening.location) (.known o) es, ?_, by simp [Expr.unlocated, hsame]⟩
    exact Grammar.expression_form hparen (Grammar.form_operator hoperator hes)
  | .sizeof location target, ts, tokens, h, htokens => by
    obtain ⟨t, ht, rfl⟩ := h
    obtain ⟨opening, us, rfl, hopening, hus⟩ := List.map_eq_cons_iff.1 htokens
    obtain ⟨word, vs, rfl, hword, hvs⟩ := List.map_eq_cons_iff.1 hus
    obtain ⟨u, ws, rfl, rfl, hws⟩ := List.map_eq_cons_iff.1 hvs
    obtain ⟨close, rfl, hclose⟩ := List.map_eq_singleton_iff.1 hws
    obtain ⟨target', htarget, hsame⟩ := Grammar.sizeofTarget_read (l := l) ht (close :: rest)
    refine ⟨.sizeof (some opening.location) target', ?_, by simp [Expr.unlocated, hsame]⟩
    have hparen : opening.kind = .openParen := congrArg Terminal.kind hopening
    exact Grammar.expression_form hparen
      (Grammar.form_sizeof (congrArg Terminal.kind hword) (congrArg Terminal.kind hclose) htarget)

/-- What operands yield is read as these operands, up to and with the closing parenthesis. -/
theorem Expr.YieldAll.read {l opened : Location} (rest : List Token) : ∀ {es : List Expr}
    {ts : List Terminal} {tokens : List Token}, Expr.YieldAll es ts →
    tokens.map Token.terminal = ts ++ [.closeParen] →
    ∃ es', (Grammar.operands (.complete l) opened (tokens ++ rest)).val = .read es' rest ∧
      Expr.unlocatedAll es' = Expr.unlocatedAll es
  | [], ts, tokens, h, htokens => by
    subst h
    obtain ⟨close, rfl, hclose⟩ := List.map_eq_singleton_iff.1 htokens
    exact ⟨[], Grammar.operands_nil (congrArg Terminal.kind hclose), rfl⟩
  | e :: es, ts, tokens, h, htokens => by
    obtain ⟨head, tail, hhead, htail, rfl⟩ := h
    rw [List.append_assoc] at htokens
    obtain ⟨us, vs, rfl, hus, hvs⟩ := List.map_eq_append_iff.1 htokens
    obtain ⟨e', he', hsame⟩ := hhead.read (vs ++ rest) hus
    obtain ⟨es', hes', hsames⟩ := htail.read rest hvs
    rw [List.append_assoc]
    refine ⟨e' :: es', ?_, by simp [Expr.unlocatedAll, hsame, hsames]⟩
    exact Grammar.operands_cons (Grammar.expressionAhead_of_yields _ hhead hus) he' hes'

end

/-! ## Initializers -/

namespace Grammar

/-- The tokens ahead do not go on with an initializer. -/
def EndsInitializer (rest : List Token) : Prop :=
  ∀ t ∈ rest.head?, t.kind ≠ .comma ∧ t.kind ≠ .fill

theorem EndsInitializer.no_fill {rest : List Token} (h : EndsInitializer rest) :
    (rest.head?.any fun t => t.kind = .fill) = false := by
  cases rest with
  | nil => rfl
  | cons t rest => simpa using (h t rfl).2

theorem EndsInitializer.no_comma {rest : List Token} (h : EndsInitializer rest) :
    (rest.head?.any fun t => t.kind = .comma) = false := by
  cases rest with
  | nil => rfl
  | cons t rest => simpa using (h t rfl).1

end Grammar

theorem Expr.InitializerYields.cases {e : Expr} {ts : List Terminal} (h : e.InitializerYields ts) :
    (∃ l value count head tail, e = .fill l value count ∧ value.Yields head ∧ count.Yields tail ∧
      ts = head ++ .fill :: tail) ∨ e.Yields ts := by
  cases e with
  | fill l value count =>
    obtain ⟨head, tail, hvalue, hcount, rfl⟩ := h
    exact .inl ⟨l, value, count, head, tail, rfl, hvalue, hcount, rfl⟩
  | _ => exact .inr h

theorem Expr.InitializerYields.read {l : Location} {rest : List Token} {e : Expr} {ts : List Terminal}
    {tokens : List Token} (h : e.InitializerYields ts) (htokens : tokens.map Token.terminal = ts)
    (hrest : (rest.head?.any fun t => t.kind = .fill) = false) :
    ∃ e', (Grammar.initializer (.complete l) (tokens ++ rest)).val = .read e' rest ∧
      e'.unlocated = e.unlocated := by
  obtain ⟨_, value, count, head, tail, rfl, hvalue, hcount, rfl⟩ | h := h.cases
  · obtain ⟨us, vs, rfl, hus, hvs⟩ := List.map_eq_append_iff.1 htokens
    obtain ⟨sign, ws, rfl, hsign, hws⟩ := List.map_eq_cons_iff.1 hvs
    have hfill : sign.kind = .fill := congrArg Terminal.kind hsign
    obtain ⟨value', hread, hsame⟩ := hvalue.read (l := l) (sign :: (ws ++ rest)) hus
    obtain ⟨count', hread', hsame'⟩ := hcount.read (l := l) rest hws
    refine ⟨.fill value'.location value' count', ?_, by simp [Expr.unlocated, hsame, hsame']⟩
    rw [List.append_assoc]
    refine Phrase.bindIf_continue hread (by simp [hfill]) fun _ => ?_
    refine Phrase.bind_read (Grammar.expect_read (by simp [hfill])) fun _ => ?_
    exact Phrase.map_read hread' _
  · obtain ⟨e', hread, hsame⟩ := h.read (l := l) rest htokens
    exact ⟨e', Phrase.bindIf_finish hread hrest, hsame⟩

/-- What initializers yield is read as these initializers, if nothing behind it goes on with the last one. -/
theorem Expr.InitializersYield.read {l : Location} {rest : List Token} (hrest : Grammar.EndsInitializer rest) :
    ∀ {es : List Expr} {ts : List Terminal} {tokens : List Token}, Expr.InitializersYield es ts →
    tokens.map Token.terminal = ts →
    ∃ es', (Grammar.initializers (.complete l) (tokens ++ rest)).val = .read es' rest ∧
      Expr.unlocatedAll es' = Expr.unlocatedAll es
  | [], _, _, h, _ => h.elim
  | [e], ts, tokens, h, htokens => by
    obtain ⟨e', hread, hsame⟩ := Expr.InitializerYields.read (l := l) h htokens hrest.no_fill
    refine ⟨[e'], ?_, by simp [Expr.unlocatedAll, hsame]⟩
    rw [Grammar.initializers]
    exact Phrase.bindIf_finish hread hrest.no_comma
  | e :: f :: es, ts, tokens, h, htokens => by
    obtain ⟨head, tail, hhead, htail, rfl⟩ := h
    obtain ⟨us, vs, rfl, hus, hvs⟩ := List.map_eq_append_iff.1 htokens
    obtain ⟨sign, ws, rfl, hsign, hws⟩ := List.map_eq_cons_iff.1 hvs
    have hcomma : sign.kind = .comma := congrArg Terminal.kind hsign
    have hstop : ((sign :: (ws ++ rest)).head?.any fun t => t.kind = .fill) = false := by simp [hcomma]
    obtain ⟨e', hread, hsame⟩ := hhead.read (l := l) hus hstop
    obtain ⟨es', hreads, hsames⟩ := Expr.InitializersYield.read (l := l) hrest htail hws
    refine ⟨e' :: es', ?_, by
      rw [Expr.unlocatedAll, hsame, hsames]
      rfl⟩
    rw [List.append_assoc, Grammar.initializers]
    refine Phrase.bindIf_continue hread (by simp [hcomma]) fun _ => ?_
    refine Phrase.bind_read (Grammar.expect_read (by simp [hcomma])) fun _ => ?_
    exact Phrase.map_read hreads _

/-! ## Statements -/

namespace Grammar

variable {l : Location} {t u : Token} {rest : List Token}

theorem declaredName_read {n : String} (hplain : IsPlainName n) (ht : t.terminal = .name n) :
    (declaredName (.complete l) (t :: rest)).val = .read n rest := by
  have hkind : t.kind = .name := congrArg Terminal.kind ht
  have htext : t.text = n := congrArg Terminal.text ht
  have htest : isPlainName t = true := by simp [isPlainName, hkind, htext, hplain.isMnemonic_eq]
  rw [declaredName, Phrase.map_read (expect_read htest), htext]

theorem elementType_read {ty : ElementType} (ht : t.kind = .type ty) :
    (elementType (.complete l) (t :: rest)).val = .read ty rest := by
  have htype : typeOf? t = some ty := by simp [typeOf?, ht]
  rw [elementType, Phrase.map_read (expect_read (by simp [htype])), htype]
  rfl

theorem equals_read (ht : t.kind = .equals) :
    (equals (.complete l) (t :: rest)).val = .read t rest :=
  expect_read (by simp [ht])

theorem filePath_read (ht : t.kind = .string) :
    (filePath (.complete l) (t :: rest)).val = .read t rest :=
  expect_read (by simp [ht])

theorem item_nullary {m : Mnemonic} (hkind : t.kind = .name)
    (hname : InstructionSet.byName? t.text = some m) (harity : m.takesArgument = false) :
    (item (.complete l) t rest).val =
      .read (.statement (.instruction (some t.location) t.text none)) rest := by
  simp only [item, hkind, hname, harity, Bool.false_eq_true, if_false]
  exact Phrase.map_read (take_read l t rest) _

theorem item_unary {m : Mnemonic} {e : Expr} {tokens : List Token} (hkind : t.kind = .name)
    (hname : InstructionSet.byName? t.text = some m) (harity : m.takesArgument = true)
    (he : (expression (.complete l) tokens).val = .read e rest) :
    (item (.complete l) t tokens).val =
      .read (.statement (.instruction (some t.location) t.text (some e))) rest := by
  simp only [item, hkind, hname, harity, if_true]
  exact Phrase.bind_read (take_read l t tokens) fun _ => Phrase.map_read he _

theorem item_push {e : Expr} {tokens : List Token} (hkind : t.kind ≠ .name)
    (hstart : startsExpression t = true)
    (he : (expression (.complete l) (t :: tokens)).val = .read e rest) :
    (item (.complete l) t tokens).val =
      .read (.statement (.instruction (some t.location) InstructionSet.push (some e))) rest := by
  unfold item
  split
  all_goals first
    | exact absurd ‹_› hkind
    | simp [startsExpression, ‹t.kind = _›] at hstart
    | skip
  simp only [hstart, if_true]
  exact Phrase.map_read he _

theorem item_label (hkind : t.kind = .label) :
    (item (.complete l) t rest).val = .read (.statement (.label (some t.location) t.text)) rest := by
  simp only [item, hkind]
  exact Phrase.map_read (take_read l t rest) _

theorem item_constant {n sign : Token} {name : String} {e : Expr} {tokens : List Token}
    (hkind : t.kind = .keyword .declareConstant) (hplain : IsPlainName name)
    (hname : n.terminal = .name name) (hequals : sign.kind = .equals)
    (he : (expression (.complete l) tokens).val = .read e rest) :
    (item (.complete l) t (n :: sign :: tokens)).val =
      .read (.statement (.constant (some t.location) name e)) rest := by
  simp only [item, hkind]
  refine Phrase.bind_read (take_read l t _) fun _ => ?_
  refine Phrase.bind_read (declaredName_read hplain hname) fun _ => ?_
  refine Phrase.bind_read (equals_read hequals) fun _ => ?_
  exact Phrase.map_read he _

theorem item_region {n word sign : Token} {name : String} {ty : ElementType} {es : List Expr}
    {tokens : List Token} (hkind : t.kind = .keyword .declareVariable) (hplain : IsPlainName name)
    (hname : n.terminal = .name name) (htype : word.kind = .type ty) (hequals : sign.kind = .equals)
    (hes : (initializers (.complete l) tokens).val = .read es rest) :
    (item (.complete l) t (n :: word :: sign :: tokens)).val =
      .read (.statement (.region (some t.location) name ty es)) rest := by
  simp only [item, hkind]
  refine Phrase.bind_read (take_read l t _) fun _ => ?_
  refine Phrase.bind_read (declaredName_read hplain hname) fun _ => ?_
  refine Phrase.bind_read (elementType_read htype) fun _ => ?_
  refine Phrase.bind_read (equals_read hequals) fun _ => ?_
  exact Phrase.map_read hes _

theorem item_embedding {n path : Token} {name : String}
    (hkind : t.kind = .keyword .embedding) (hplain : IsPlainName name)
    (hname : n.terminal = .name name) (hpath : path.kind = .string) :
    (item (.complete l) t (n :: path :: rest)).val =
      .read (.statement (.embedding (some t.location) name path.text)) rest := by
  simp only [item, hkind]
  refine Phrase.bind_read (take_read l t _) fun _ => ?_
  refine Phrase.bind_read (declaredName_read hplain hname) fun _ => ?_
  exact Phrase.map_read (filePath_read hpath) _

end Grammar

/-- A statement starts with a terminal that does not go on with an initializer. -/
theorem Statement.Yields.starts {s : Statement} {ts : List Terminal} (h : s.Yields ts) :
    ∃ t rest, ts = t :: rest ∧ t.kind ≠ .comma ∧ t.kind ≠ .fill := by
  have hexpression : ∀ {e : Expr}, e.Yields ts → ∃ t rest, ts = t :: rest ∧ t.kind ≠ .comma ∧ t.kind ≠ .fill := by
    intro e he
    obtain ⟨t, rest, rfl, hstart⟩ := he.starts
    refine ⟨t, rest, rfl, ?_, ?_⟩ <;> intro hkind <;>
      simp [Terminal.startsExpression, Grammar.startsExpression, hkind] at hstart
  cases s with
  | instruction location name argument =>
    cases argument with
    | none =>
      obtain ⟨-, rfl⟩ := h
      exact ⟨_, _, rfl, by simp [Terminal.name], by simp [Terminal.name]⟩
    | some e =>
      obtain ⟨_, body, _, _, _, rfl⟩ | ⟨_, he, _⟩ := h
      · exact ⟨_, _, rfl, by simp [Terminal.name], by simp [Terminal.name]⟩
      · exact hexpression he
  | label location name => exact ⟨_, _, h, by simp [Terminal.label], by simp [Terminal.label]⟩
  | constant location name value =>
    obtain ⟨body, _, _, rfl⟩ := h
    exact ⟨_, _, rfl, by simp [Terminal.keyword], by simp [Terminal.keyword]⟩
  | region location name type initializers =>
    obtain ⟨body, _, _, rfl⟩ := h
    exact ⟨_, _, rfl, by simp [Terminal.keyword], by simp [Terminal.keyword]⟩
  | embedding location name path =>
    obtain ⟨_, rfl⟩ := h
    exact ⟨_, _, rfl, by simp [Terminal.keyword], by simp [Terminal.keyword]⟩
  | foreign location kind => exact h.elim

/-- What a statement yields is read as that statement, if nothing behind it goes on with an initializer. -/
theorem Statement.Yields.read {l : Location} {rest tail : List Token} {t : Token} {s : Statement}
    {ts : List Terminal} (hrest : Grammar.EndsInitializer rest) (h : s.Yields ts)
    (htokens : (t :: tail).map Token.terminal = ts) :
    ∃ s', (Grammar.item (.complete l) t (tail ++ rest)).val = .read (.statement s') rest ∧
      s'.unlocated = s.unlocated := by
  rw [List.map_cons] at htokens
  cases s with
  | instruction location name argument =>
    cases argument with
    | none =>
      obtain ⟨⟨m, hname, harity⟩, rfl⟩ := h
      obtain ⟨ht, hnil⟩ := List.cons.inj htokens
      obtain rfl := List.map_eq_nil_iff.1 hnil
      have hkind : t.kind = .name := congrArg Terminal.kind ht
      have htext : t.text = name := congrArg Terminal.text ht
      exact ⟨_, Grammar.item_nullary hkind (htext ▸ hname) harity, by simp [Statement.unlocated, htext]⟩
    | some e =>
      obtain ⟨m, body, hname, harity, he, rfl⟩ | ⟨rfl, he, hhead⟩ := h
      · obtain ⟨ht, hbody⟩ := List.cons.inj htokens
        have hkind : t.kind = .name := congrArg Terminal.kind ht
        have htext : t.text = name := congrArg Terminal.text ht
        obtain ⟨e', hread, hsame⟩ := he.read (l := l) rest hbody
        exact ⟨_, Grammar.item_unary hkind (htext ▸ hname) harity hread,
          by simp [Statement.unlocated, htext, hsame]⟩
      · rw [← List.map_cons] at htokens
        obtain ⟨e', hread, hsame⟩ := he.read (l := l) rest htokens
        have hstart := Grammar.expressionAhead_of_yields rest he htokens
        have hkind : t.kind ≠ .name := hhead t.terminal (by simp [← htokens])
        exact ⟨_, Grammar.item_push hkind hstart hread, by simp [Statement.unlocated, hsame]⟩
  | label location name =>
    obtain ⟨ht, hnil⟩ := List.cons.inj (htokens.trans h)
    obtain rfl := List.map_eq_nil_iff.1 hnil
    have htext : t.text = name := congrArg Terminal.text ht
    exact ⟨_, Grammar.item_label (congrArg Terminal.kind ht), by simp [Statement.unlocated, htext]⟩
  | constant location name value =>
    obtain ⟨body, hplain, hvalue, rfl⟩ := h
    obtain ⟨ht, htail⟩ := List.cons.inj htokens
    obtain ⟨n, us, rfl, hn, hus⟩ := List.map_eq_cons_iff.1 htail
    obtain ⟨sign, vs, rfl, hsign, hvs⟩ := List.map_eq_cons_iff.1 hus
    obtain ⟨value', hread, hsame⟩ := hvalue.read (l := l) rest hvs
    exact ⟨_, Grammar.item_constant (congrArg Terminal.kind ht) hplain hn (congrArg Terminal.kind hsign) hread,
      by simp [Statement.unlocated, hsame]⟩
  | region location name type initializers =>
    obtain ⟨body, hplain, hinitializers, rfl⟩ := h
    obtain ⟨ht, htail⟩ := List.cons.inj htokens
    obtain ⟨n, us, rfl, hn, hus⟩ := List.map_eq_cons_iff.1 htail
    obtain ⟨word, vs, rfl, hword, hvs⟩ := List.map_eq_cons_iff.1 hus
    obtain ⟨sign, ws, rfl, hsign, hws⟩ := List.map_eq_cons_iff.1 hvs
    obtain ⟨es, hread, hsame⟩ := hinitializers.read (l := l) hrest hws
    exact ⟨_, Grammar.item_region (congrArg Terminal.kind ht) hplain hn (congrArg Terminal.kind hword)
      (congrArg Terminal.kind hsign) hread, by simp [Statement.unlocated, hsame]⟩
  | embedding location name path =>
    obtain ⟨hplain, rfl⟩ := h
    obtain ⟨ht, htail⟩ := List.cons.inj htokens
    obtain ⟨n, us, rfl, hn, hus⟩ := List.map_eq_cons_iff.1 htail
    obtain ⟨p, rfl, hp⟩ := List.map_eq_singleton_iff.1 hus
    have htext : p.text = path := congrArg Terminal.text hp
    exact ⟨_, Grammar.item_embedding (congrArg Terminal.kind ht) hplain hn (congrArg Terminal.kind hp),
      by simp [Statement.unlocated, htext]⟩
  | foreign location kind => exact h.elim

/-! ## Units -/

theorem Statement.YieldAll.endsInitializer {ss : List Statement} {ts : List Terminal} {tokens : List Token}
    (h : Statement.YieldAll ss ts) (htokens : tokens.map Token.terminal = ts) :
    Grammar.EndsInitializer tokens := by
  cases ss with
  | nil =>
    obtain rfl : tokens = [] := List.map_eq_nil_iff.1 (htokens.trans h)
    simp [Grammar.EndsInitializer]
  | cons s ss =>
    obtain ⟨head, tail, hhead, -, rfl⟩ := h
    obtain ⟨t, rest, rfl, hkind⟩ := hhead.starts
    obtain ⟨u, us, rfl, rfl, -⟩ := List.map_eq_cons_iff.1 htokens
    simpa [Grammar.EndsInitializer] using hkind

/-- What statements yield is read as these statements, with nothing recorded. -/
theorem Statement.YieldAll.read_items (env : Surroundings) (active : List ActiveFile) (file : String)
    (l : Location) : ∀ {ss : List Statement} {ts : List Terminal} {tokens : List Token},
    Statement.YieldAll ss ts → tokens.map Token.terminal = ts →
    ∃ ss', ss'.map Statement.unlocated = ss.map Statement.unlocated ∧
      ∀ j, Unit.items env active file (.complete l) tokens j = .ok ss' j
  | [], ts, tokens, h, htokens => by
    obtain rfl : tokens = [] := List.map_eq_nil_iff.1 (htokens.trans h)
    refine ⟨[], rfl, fun j => ?_⟩
    rw [Unit.items]
    rfl
  | s :: ss, ts, tokens, h, htokens => by
    obtain ⟨head, tail, hhead, htail, rfl⟩ := h
    obtain ⟨us, vs, rfl, hus, hvs⟩ := List.map_eq_append_iff.1 htokens
    obtain ⟨ss', hsame, hread⟩ := htail.read_items env active file l hvs
    obtain ⟨_, _, rfl, -⟩ := hhead.starts
    obtain ⟨t, us, rfl, -, -⟩ := List.map_eq_cons_iff.1 hus
    obtain ⟨s', hitem, hsame'⟩ := hhead.read (l := l) (htail.endsInitializer hvs) hus
    refine ⟨s' :: ss', by simp [hsame, hsame'], fun j => ?_⟩
    rw [List.cons_append, Unit.items_of_statement hitem, bind_of_ok (hread j), pure_result]

/-- Text that spells what statements yield is read as these statements. Nothing is recorded; only the log grows. -/
theorem Program.read_of_yieldAll {env : Surroundings} {file text : String} {ss : List Statement} {ts : List Terminal}
    (hstart : Unit.CanStart env file) (htext : Spells text.toList ts) (h : Statement.YieldAll ss ts) :
    ∃ ss', ss'.map Statement.unlocated = ss.map Statement.unlocated ∧
      ∀ j, Program.read env file text j =
        .ok ⟨ss', file⟩ { j with log := j.log ++ [.parsing file, .parsed ss'.length file] } := by
  obtain ⟨active, hactive⟩ := hstart
  obtain ⟨tokens, l, htokens, hterminals⟩ := tokenize_of_spells htext file
  obtain ⟨ss', hsame, hitems⟩ := h.read_items env active file l hterminals
  refine ⟨ss', hsame, fun j => ?_⟩
  have hstart : Unit.start file text j = .ok (tokens, .complete l) { j with log := j.log ++ [.parsing file] } := by
    simp only [Unit.start, htokens]
    rfl
  have hunit : Unit.read env active file text j =
      .ok ss' { j with log := j.log ++ [.parsing file, .parsed ss'.length file] } := by
    rw [Unit.read, bind_of_ok hstart]
    dsimp only
    rw [bind_of_ok (hitems _)]
    simp [Journal.note]
  rw [Program.read_of_active hactive, bind_of_ok hunit, pure_result]

end AvmAssembler
