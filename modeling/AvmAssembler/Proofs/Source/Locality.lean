import AvmAssembler.Proofs.Source.Completeness
import AvmAssembler.Proofs.Source.Relocation

/-! # Tokens behind a phrase

A phrase that is read from some tokens is read from more of them as well, and the added tokens are left behind. Only an
initializer could go on with them, if it stands at the end of the tokens. So a unit falls into its items from the front,
and units that are put one behind the other fall into the items of the first and those of the second.
-/

namespace AvmAssembler

/-- A value of the first outcome is one of the second, which leaves more tokens behind. -/
def Outcome.Carries {α : Type} (more : List Token) (o o' : Outcome α) : Prop :=
  ∀ a rest, o = .read a rest → o' = .read a (rest ++ more)

namespace Phrase

variable {α β : Type} {tokens others more : List Token} {p : Phrase α tokens} {p' : Phrase α others}

theorem refuse_carries {fault : Fault} {o : Outcome α} : (refuse fault : Phrase α tokens).val.Carries more o := by
  intro a rest h
  cases h

theorem map_carries (h : p.val.Carries more p'.val) (f : α → β) : (p.map f).val.Carries more (p'.map f).val := by
  obtain ⟨o, ho⟩ := p
  cases o with
  | read a rest =>
    intro b left hb
    cases hb
    exact map_read (h a rest rfl) f
  | refused | unreadable => exact fun _ _ hb => by cases hb

theorem bind_carries (h : p.val.Carries more p'.val)
    {f : α → (rest : List Token) → rest.length < tokens.length → Phrase β rest}
    {f' : α → (rest : List Token) → rest.length < others.length → Phrase β rest}
    (hf : ∀ a rest hlt hlt', (f a rest hlt).val.Carries more (f' a (rest ++ more) hlt').val) :
    (p.bind f).val.Carries more (p'.bind f').val := by
  obtain ⟨o, ho⟩ := p
  cases o with
  | read a rest => exact fun b left hb => bind_read (h a rest rfl) fun hlt' => hf a rest ho hlt' b left hb
  | refused | unreadable => exact fun _ _ hb => by cases hb

theorem bindIf_carries (h : p.val.Carries more p'.val) {continues : List Token → Bool}
    (hcontinues : ∀ rest, continues (rest ++ more) = continues rest)
    {f : α → (rest : List Token) → rest.length < tokens.length → Phrase β rest}
    {f' : α → (rest : List Token) → rest.length < others.length → Phrase β rest}
    (hf : ∀ a rest hlt hlt', (f a rest hlt).val.Carries more (f' a (rest ++ more) hlt').val) (finish : α → β) :
    (p.bindIf continues f finish).val.Carries more (p'.bindIf continues f' finish).val := by
  obtain ⟨o, ho⟩ := p
  cases o with
  | read a rest =>
    intro b left hb
    simp only [bindIf] at hb
    split at hb
    · rename_i hgo
      exact bindIf_continue (h a rest rfl) ((hcontinues rest).trans hgo) fun hlt' => hf a rest ho hlt' b left hb
    · rename_i hstop
      cases hb
      exact bindIf_finish (h a rest rfl) ((hcontinues rest).trans (Bool.eq_false_iff.2 hstop))
  | refused | unreadable => exact fun _ _ hb => by cases hb

theorem check_carries (h : p.val.Carries more p'.val) (f : α → Except (Fault ⊕ NumeralError) β) :
    (p.check f).val.Carries more (p'.check f).val := by
  obtain ⟨o, ho⟩ := p
  cases o with
  | read a rest =>
    intro b left hb
    simp only [check] at hb
    split at hb
    · rename_i hvalue
      cases hb
      exact check_read (h a rest rfl) hvalue
    · cases hb
    · cases hb
  | refused | unreadable => exact fun _ _ hb => by cases hb

end Phrase

/-! ## The grammar -/

namespace Grammar

variable {more : List Token} {l : Location}

theorem take_carries (ending : Ending) (t : Token) (rest : List Token) :
    (take ending t rest).val.Carries more (take (.complete l) t (rest ++ more)).val := by
  intro u left h
  rw [take_read]
  unfold take at h
  split at h
  · cases h
  · cases h
    rfl

theorem accept_carries (ending : Ending) (test : Token → Bool) (fault fault' : Fault) (tokens : List Token) :
    (accept ending test fault tokens).val.Carries more (accept (.complete l) test fault' (tokens ++ more)).val := by
  cases tokens with
  | nil => exact Phrase.refuse_carries
  | cons t rest =>
    simp only [accept, List.cons_append]
    split
    · exact take_carries ending t rest
    · exact Phrase.refuse_carries

theorem expect_carries (ending : Ending) (expected : Expected) (test : Token → Bool) (tokens : List Token) :
    (expect ending expected test tokens).val.Carries more (expect (.complete l) expected test (tokens ++ more)).val :=
  accept_carries ending test _ _ tokens

theorem closing_carries (ending : Ending) (opened : Location) (tokens : List Token) :
    (closing ending opened tokens).val.Carries more (closing (.complete l) opened (tokens ++ more)).val :=
  accept_carries ending _ _ _ tokens

theorem sizeofTarget_carries (ending : Ending) (tokens : List Token) :
    (sizeofTarget ending tokens).val.Carries more (sizeofTarget (.complete l) (tokens ++ more)).val := by
  cases tokens with
  | nil => exact Phrase.refuse_carries
  | cons t rest =>
    simp only [sizeofTarget, List.cons_append]
    split
    · exact Phrase.map_carries (take_carries ending t rest) _
    · exact Phrase.map_carries (expect_carries ending .identifier isPlainName (t :: rest)) _
    · exact Phrase.refuse_carries

mutual

theorem expression_carries (ending : Ending) (tokens : List Token) :
    (expression ending tokens).val.Carries more (expression (.complete l) (tokens ++ more)).val := by
  match tokens with
  | [] =>
    rw [expression]
    exact Phrase.refuse_carries
  | t :: rest =>
    rw [List.cons_append, expression, expression]
    split
    · exact Phrase.bind_carries (take_carries ending t rest) fun _ inner _ _ => form_carries ending t.location inner
    · split
      · exact Phrase.check_carries (take_carries ending t rest) atom
      · exact Phrase.refuse_carries
termination_by (tokens.length, 0)

theorem form_carries (ending : Ending) (opened : Location) (tokens : List Token) :
    (form ending opened tokens).val.Carries more (form (.complete l) opened (tokens ++ more)).val := by
  match tokens with
  | [] =>
    rw [form]
    exact Phrase.refuse_carries
  | t :: rest =>
    rw [List.cons_append, form, form]
    split
    · refine Phrase.bind_carries (take_carries ending t rest) fun _ inner _ _ => ?_
      refine Phrase.bind_carries (sizeofTarget_carries ending inner) fun target after _ _ => ?_
      exact Phrase.map_carries (closing_carries ending opened after) _
    · refine Phrase.bind_carries (take_carries ending t rest) fun _ inner hlt _ => ?_
      exact Phrase.map_carries (operands_carries ending opened inner) _
    · exact Phrase.refuse_carries
termination_by (tokens.length, 0)

theorem operands_carries (ending : Ending) (opened : Location) (tokens : List Token) :
    (operands ending opened tokens).val.Carries more (operands (.complete l) opened (tokens ++ more)).val := by
  cases tokens with
  | nil =>
    -- Without a token ahead there is no closing parenthesis.
    intro es rest h
    rw [operands] at h
    cases h
  | cons t rest =>
    have hahead : expressionAhead (t :: rest ++ more) = expressionAhead (t :: rest) := rfl
    rw [operands, operands, hahead]
    split
    · refine Phrase.bind_carries (expression_carries ending (t :: rest)) fun e after hlt _ => ?_
      exact Phrase.map_carries (operands_carries ending opened after) _
    · exact Phrase.map_carries (closing_carries ending opened (t :: rest)) _
termination_by (tokens.length, 1)

end

theorem EndsInitializer.head?_append {more : List Token} (h : EndsInitializer more) (rest : List Token)
    (kind : TokenKind) (hkind : kind = .comma ∨ kind = .fill) :
    ((rest ++ more).head?.any fun t => t.kind = kind) = rest.head?.any fun t => t.kind = kind := by
  cases rest with
  | nil =>
    rcases hkind with rfl | rfl
    · exact h.no_comma
    · exact h.no_fill
  | cons t rest => rfl

section

variable (hmore : EndsInitializer more)

include hmore

theorem initializer_carries (ending : Ending) (tokens : List Token) :
    (initializer ending tokens).val.Carries more (initializer (.complete l) (tokens ++ more)).val := by
  refine Phrase.bindIf_carries (expression_carries ending tokens)
    (fun rest => hmore.head?_append rest .fill (.inr rfl)) ?_ _
  intro value rest _ _
  refine Phrase.bind_carries (expect_carries ending .expression _ rest) fun _ after _ _ => ?_
  exact Phrase.map_carries (expression_carries ending after) _

theorem initializers_carries (ending : Ending) (tokens : List Token) :
    (initializers ending tokens).val.Carries more (initializers (.complete l) (tokens ++ more)).val := by
  rw [initializers, initializers]
  refine Phrase.bindIf_carries (initializer_carries hmore ending tokens)
    (fun rest => hmore.head?_append rest .comma (.inl rfl)) ?_ _
  intro value rest hlt _
  refine Phrase.bind_carries (expect_carries ending .expression _ rest) fun _ after hlt' _ => ?_
  exact Phrase.map_carries (initializers_carries ending after) _
termination_by tokens.length

end

theorem declaredName_carries (ending : Ending) (tokens : List Token) :
    (declaredName ending tokens).val.Carries more (declaredName (.complete l) (tokens ++ more)).val :=
  Phrase.map_carries (expect_carries ending .identifier isPlainName tokens) Token.text

theorem elementType_carries (ending : Ending) (tokens : List Token) :
    (elementType ending tokens).val.Carries more (elementType (.complete l) (tokens ++ more)).val :=
  Phrase.map_carries (expect_carries ending .type _ tokens) _

theorem equals_carries (ending : Ending) (tokens : List Token) :
    (equals ending tokens).val.Carries more (equals (.complete l) (tokens ++ more)).val :=
  expect_carries ending .equals _ tokens

theorem filePath_carries (ending : Ending) (tokens : List Token) :
    (filePath ending tokens).val.Carries more (filePath (.complete l) (tokens ++ more)).val :=
  expect_carries ending .filePath _ tokens

/-- An item is read with more tokens behind it as without them, unless these go on with an initializer. -/
theorem item_carries (hmore : EndsInitializer more) (ending : Ending) (t : Token) (rest : List Token) :
    (item ending t rest).val.Carries more (item (.complete l) t (rest ++ more)).val := by
  have htake : (take ending t rest).val.Carries more (take (.complete l) t (rest ++ more)).val :=
    take_carries ending t rest
  unfold item
  split
  · split
    · exact Phrase.refuse_carries
    · split
      · refine Phrase.bind_carries htake fun _ inner _ _ => ?_
        exact Phrase.map_carries (expression_carries ending inner) _
      · exact Phrase.map_carries htake _
  · exact Phrase.map_carries htake _
  · refine Phrase.bind_carries htake fun _ r₁ _ _ => ?_
    refine Phrase.bind_carries (declaredName_carries ending r₁) fun name r₂ _ _ => ?_
    refine Phrase.bind_carries (elementType_carries ending r₂) fun ty r₃ _ _ => ?_
    refine Phrase.bind_carries (equals_carries ending r₃) fun _ r₄ _ _ => ?_
    exact Phrase.map_carries (initializers_carries hmore ending r₄) _
  · refine Phrase.bind_carries htake fun _ r₁ _ _ => ?_
    refine Phrase.bind_carries (declaredName_carries ending r₁) fun name r₂ _ _ => ?_
    refine Phrase.bind_carries (equals_carries ending r₂) fun _ r₃ _ _ => ?_
    exact Phrase.map_carries (expression_carries ending r₃) _
  · refine Phrase.bind_carries htake fun _ r₁ _ _ => ?_
    refine Phrase.bind_carries (declaredName_carries ending r₁) fun name r₂ _ _ => ?_
    exact Phrase.map_carries (filePath_carries ending r₂) _
  · refine Phrase.bind_carries htake fun _ r₁ _ _ => ?_
    exact Phrase.map_carries (filePath_carries ending r₁) _
  · split
    · exact Phrase.map_carries (expression_carries ending (t :: rest)) _
    · exact Phrase.refuse_carries

/-! ## Items one after another -/

/-- The tokens are those of the items, one after another. -/
inductive Itemizes (ending : Ending) : List Token → List Item → Prop
  | nil : Itemizes ending [] []
  | cons {t : Token} {rest left : List Token} {i : Item} {is : List Item} : (item ending t rest).val = .read i left →
      Itemizes ending left is → Itemizes ending (t :: rest) (i :: is)

namespace Itemizes

variable {ending : Ending} {tokens : List Token} {is is' : List Item}

/-- Tokens fall into items in one way. -/
theorem unique (h : Itemizes ending tokens is) (h' : Itemizes ending tokens is') : is = is' := by
  induction h generalizing is' with
  | nil =>
    cases h'
    rfl
  | cons hitem _ ih =>
    cases h' with
    | cons hitem' hleft =>
      obtain ⟨rfl, rfl⟩ := Outcome.read.inj (hitem.symm.trans hitem')
      rw [ih hleft]

theorem relocate (f : Location → Location) (h : Itemizes ending tokens is) :
    Itemizes (ending.relocate f) (tokens.map (Token.relocate f)) (is.map (Item.relocate f)) := by
  induction h with
  | nil => exact .nil
  | @cons t rest left i is hitem _ ih =>
    refine .cons ?_ ih
    rw [item_relocate, hitem]
    rfl

/-- No item starts with a token that goes on with an initializer. -/
theorem endsInitializer (h : Itemizes ending tokens is) : EndsInitializer tokens := by
  cases h with
  | nil => simp [EndsInitializer]
  | @cons t rest left i is hitem _ =>
    intro u hu
    obtain rfl : t = u := by simpa using hu
    constructor <;> intro hkind <;> simp [item, hkind, startsExpression, Phrase.refuse] at hitem

/-- Tokens one behind the other fall into the items of the first and those of the second. -/
theorem append {more : List Token} {l : Location} (h : Itemizes ending tokens is)
    (h' : Itemizes (.complete l) more is') : Itemizes (.complete l) (tokens ++ more) (is ++ is') := by
  induction h with
  | nil => exact h'
  | @cons t rest left i is hitem _ ih => exact .cons (item_carries h'.endsInitializer ending t rest i left hitem) ih

end Itemizes

end Grammar

end AvmAssembler
