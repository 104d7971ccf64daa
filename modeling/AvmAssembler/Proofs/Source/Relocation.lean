import AvmAssembler.Source.Grammar

/-! # Relocation

Tokens, trees and faults carry locations, which may be moved by any function. Readers look at the kinds and the texts of
tokens only, so moving the tokens ahead moves what is read from them and changes nothing else.
-/

namespace AvmAssembler

/-! ## What is moved -/

section

variable (f : Location → Location)

def Token.relocate (t : Token) : Token :=
  { t with location := f t.location }

def Ending.relocate : Ending → Ending
  | complete l => complete (f l)
  | malformed fault l => malformed fault (f l)

def SizeofTarget.relocate : SizeofTarget → SizeofTarget
  | name l n => name (l.map f) n
  | type l t => type (l.map f) t

mutual

def Expr.relocate : Expr → Expr
  | .integer l v => .integer (l.map f) v
  | .float l bits => .float (l.map f) bits
  | .string l text => .string (l.map f) text
  | .name l n => .name (l.map f) n
  | .type l t => .type (l.map f) t
  | .apply l sign operands => .apply (l.map f) sign (Expr.relocateAll operands)
  | .sizeof l target => .sizeof (l.map f) (target.relocate f)
  | .fill l value count => .fill (l.map f) (Expr.relocate value) (Expr.relocate count)
  | .foreign l kind => .foreign (l.map f) kind

def Expr.relocateAll : List Expr → List Expr
  | [] => []
  | e :: es => Expr.relocate e :: Expr.relocateAll es

end

def Statement.relocate : Statement → Statement
  | .instruction l name argument => .instruction (l.map f) name (argument.map (Expr.relocate f))
  | .label l name => .label (l.map f) name
  | .constant l name value => .constant (l.map f) name (value.relocate f)
  | .region l name type initializers => .region (l.map f) name type (Expr.relocateAll f initializers)
  | .embedding l name path => .embedding (l.map f) name path
  | .foreign l kind => .foreign (l.map f) kind

def Program.relocate (p : Program) : Program :=
  { p with statements := p.statements.map (Statement.relocate f) }

def Grammar.Item.relocate : Grammar.Item → Grammar.Item
  | .statement s => .statement (s.relocate f)
  | .inclusion keyword path l => .inclusion (f keyword) path (f l)

def Cause.relocate : Cause → Cause
  | .unclosedForm opened => .unclosedForm (f opened)
  | .sizeofNonVariable kind name defined => .sizeofNonVariable kind name (defined.map f)
  | .usedEarly name declared => .usedEarly name (f declared)
  | .redefinition name first => .redefinition name (first.map f)
  | .inclusion path failure notes searched =>
    .inclusion path failure (notes.map fun n => (n.1.map f, n.2)) searched
  | .stated category message hint notes => .stated category message hint (notes.map fun n => (n.1.map f, n.2))
  | cause => cause

def Fault.relocate (fault : Fault) : Fault :=
  ⟨fault.cause.relocate f, fault.location.map f⟩

/-- An outcome at other places: `move` is how values are moved. -/
def Outcome.relocate {α β : Type} (move : α → β) : Outcome α → Outcome β
  | read a rest => read (move a) (rest.map (Token.relocate f))
  | refused fault rest => refused (fault.relocate f) (rest.map (Token.relocate f))
  | unreadable e => unreadable e

end

variable {f : Location → Location}

@[simp] theorem Token.relocate_kind (t : Token) : (t.relocate f).kind = t.kind := rfl

@[simp] theorem Token.relocate_text (t : Token) : (t.relocate f).text = t.text := rfl

@[simp] theorem Token.relocate_location (t : Token) : (t.relocate f).location = f t.location := rfl

@[simp] theorem Ending.relocate_location (ending : Ending) : (ending.relocate f).location = f ending.location := by
  cases ending <;> rfl

@[simp] theorem Expr.relocate_location (e : Expr) : (e.relocate f).location = e.location.map f := by
  cases e <;> rfl

theorem Expr.relocateAll_eq_map (es : List Expr) : Expr.relocateAll f es = es.map (Expr.relocate f) := by
  induction es with
  | nil => rfl
  | cons e es ih => rw [Expr.relocateAll, ih, List.map_cons]

@[simp] theorem Statement.relocate_location (s : Statement) : (s.relocate f).location = s.location.map f := by
  cases s <;> rfl

@[simp] theorem Statement.relocate_lateName? (s : Statement) : (s.relocate f).lateName? = s.lateName? := by
  cases s <;> rfl

theorem Program.relocate_instructionCount (p : Program) : (p.relocate f).instructionCount = p.instructionCount := by
  have hsame : Statement.isInstruction ∘ Statement.relocate f = Statement.isInstruction := by
    funext s
    cases s <;> rfl
  rw [instructionCount, instructionCount, relocate, List.countP_map, hsame]

@[simp] theorem Cause.relocate_category (cause : Cause) : (cause.relocate f).category = cause.category := by
  cases cause <;> rfl

@[simp] theorem Cause.relocate_message (cause : Cause) : (cause.relocate f).message = cause.message := by
  cases cause <;> rfl

@[simp] theorem Cause.relocate_hint (cause : Cause) : (cause.relocate f).hint = cause.hint := by
  cases cause <;> rfl

theorem Cause.relocate_notes (cause : Cause) :
    (cause.relocate f).notes = cause.notes.map fun n => (n.1.map f, n.2) := by
  cases cause with
  | redefinition name first => cases first <;> rfl
  | _ => rfl

@[simp] theorem Fault.relocate_isFatal (fault : Fault) : (fault.relocate f).isFatal = fault.isFatal :=
  congrArg FaultCategory.isFatal fault.cause.relocate_category

/-! ## Moving twice -/

section

variable (f g : Location → Location)

theorem SizeofTarget.relocate_relocate (target : SizeofTarget) :
    (target.relocate f).relocate g = target.relocate (g ∘ f) := by
  cases target <;> simp [relocate]

mutual

theorem Expr.relocate_relocate : ∀ e : Expr, (e.relocate f).relocate g = e.relocate (g ∘ f)
  | .integer .. | .float .. | .string .. | .name .. | .type .. | .foreign .. => by simp [relocate]
  | .apply l sign operands => by simp [relocate, relocateAll_relocateAll operands]
  | .sizeof l target => by simp [relocate, SizeofTarget.relocate_relocate]
  | .fill l value count => by simp [relocate, value.relocate_relocate, count.relocate_relocate]

theorem Expr.relocateAll_relocateAll : ∀ es : List Expr,
    relocateAll g (relocateAll f es) = relocateAll (g ∘ f) es
  | [] => rfl
  | e :: es => by simp [relocateAll, e.relocate_relocate, relocateAll_relocateAll es]

end

theorem Statement.relocate_relocate (s : Statement) : (s.relocate f).relocate g = s.relocate (g ∘ f) := by
  cases s with
  | instruction l name argument => cases argument <;> simp [relocate, Expr.relocate_relocate]
  | _ => simp [relocate, Expr.relocate_relocate, Expr.relocateAll_relocateAll]

end

/-! ## Phrases -/

namespace Phrase

variable {α β γ δ : Type} {tokens others : List Token} {p : Phrase α tokens} {p' : Phrase β others} {move : α → β}
  {move' : γ → δ}

theorem refuse_relocate (fault : Fault) (tokens : List Token) :
    (refuse (fault.relocate f) : Phrase β (tokens.map (Token.relocate f))).val =
      (refuse fault : Phrase α tokens).val.relocate f move := rfl

theorem map_relocate (h : p'.val = p.val.relocate f move) {g : α → γ} {g' : β → δ}
    (hg : ∀ a, g' (move a) = move' (g a)) : (p'.map g').val = (p.map g).val.relocate f move' := by
  change p'.val.map g' = (p.val.map g).relocate f move'
  rw [h]
  cases p.val with
  | read a rest => simp [Outcome.relocate, Outcome.map, hg]
  | refused fault rest => rfl
  | unreadable e => rfl

theorem bind_relocate (h : p'.val = p.val.relocate f move)
    {g : α → (rest : List Token) → rest.length < tokens.length → Phrase γ rest}
    {g' : β → (rest : List Token) → rest.length < others.length → Phrase δ rest}
    (hg : ∀ a rest hlt hlt', (g' (move a) (rest.map (Token.relocate f)) hlt').val =
      (g a rest hlt).val.relocate f move') : (p'.bind g').val = (p.bind g).val.relocate f move' := by
  obtain ⟨o, ho⟩ := p
  obtain ⟨o', ho'⟩ := p'
  obtain rfl : o' = o.relocate f move := h
  cases o with
  | read a rest => exact hg a rest ho ho'
  | refused fault rest => rfl
  | unreadable e => rfl

theorem bindIf_relocate (h : p'.val = p.val.relocate f move) {continues : List Token → Bool}
    (hcontinues : ∀ rest, continues (rest.map (Token.relocate f)) = continues rest)
    {g : α → (rest : List Token) → rest.length < tokens.length → Phrase γ rest}
    {g' : β → (rest : List Token) → rest.length < others.length → Phrase δ rest}
    (hg : ∀ a rest hlt hlt', (g' (move a) (rest.map (Token.relocate f)) hlt').val =
      (g a rest hlt).val.relocate f move') {finish : α → γ} {finish' : β → δ}
    (hfinish : ∀ a, finish' (move a) = move' (finish a)) :
    (p'.bindIf continues g' finish').val = (p.bindIf continues g finish).val.relocate f move' := by
  obtain ⟨o, ho⟩ := p
  obtain ⟨o', ho'⟩ := p'
  obtain rfl : o' = o.relocate f move := h
  cases o with
  | read a rest =>
    simp only [Outcome.relocate, bindIf, hcontinues]
    split
    · exact hg a rest ho ho'
    · simp only [hfinish]
  | refused fault rest => rfl
  | unreadable e => rfl

theorem check_relocate (h : p'.val = p.val.relocate f move) {g : α → Except (Fault ⊕ NumeralError) γ}
    {g' : β → Except (Fault ⊕ NumeralError) δ}
    (hg : ∀ a, g' (move a) = ((g a).map move').mapError (Sum.map (Fault.relocate f) id)) :
    (p'.check g').val = (p.check g).val.relocate f move' := by
  obtain ⟨o, ho⟩ := p
  obtain ⟨o', ho'⟩ := p'
  obtain rfl : o' = o.relocate f move := h
  cases o with
  | read a rest =>
    simp only [Outcome.relocate, check, hg]
    rcases g a with (fault | e) | b <;> rfl
  | refused fault rest => rfl
  | unreadable e => rfl

end Phrase

/-! ## The grammar -/

namespace Grammar

theorem found_relocate (tokens : List Token) : found (tokens.map (Token.relocate f)) = found tokens := by
  cases tokens <;> rfl

theorem place_relocate (ending : Ending) (tokens : List Token) :
    place (ending.relocate f) (tokens.map (Token.relocate f)) = f (place ending tokens) := by
  cases tokens with
  | nil => exact ending.relocate_location
  | cons => rfl

theorem unexpected_relocate (ending : Ending) (expected : Expected) (tokens : List Token) :
    unexpected (ending.relocate f) expected (tokens.map (Token.relocate f)) =
      (unexpected ending expected tokens).relocate f := by
  rw [unexpected, found_relocate, place_relocate]
  rfl

theorem take_relocate (ending : Ending) (t : Token) (rest : List Token) :
    (take (ending.relocate f) (t.relocate f) (rest.map (Token.relocate f))).val =
      (take ending t rest).val.relocate f (Token.relocate f) := by
  cases rest <;> cases ending <;> rfl

theorem accept_relocate {test : Token → Bool} (htest : ∀ t : Token, test (t.relocate f) = test t) (ending : Ending)
    (fault : Fault) (tokens : List Token) :
    (accept (ending.relocate f) test (fault.relocate f) (tokens.map (Token.relocate f))).val =
      (accept ending test fault tokens).val.relocate f (Token.relocate f) := by
  cases tokens with
  | nil => rfl
  | cons t rest =>
    change (accept _ _ _ (t.relocate f :: rest.map (Token.relocate f))).val = _
    simp only [accept, htest]
    split
    · exact take_relocate ending t rest
    · exact Phrase.refuse_relocate fault (t :: rest)

theorem expect_relocate {test : Token → Bool} (htest : ∀ t : Token, test (t.relocate f) = test t) (ending : Ending)
    (expected : Expected) (tokens : List Token) :
    (expect (ending.relocate f) expected test (tokens.map (Token.relocate f))).val =
      (expect ending expected test tokens).val.relocate f (Token.relocate f) := by
  rw [expect, unexpected_relocate]
  exact accept_relocate htest ending _ tokens

theorem expressionAhead_relocate (tokens : List Token) :
    expressionAhead (tokens.map (Token.relocate f)) = expressionAhead tokens := by
  cases tokens <;> rfl

theorem atom_relocate (t : Token) :
    atom (t.relocate f) = ((atom t).map (Expr.relocate f)).mapError (Sum.map (Fault.relocate f) id) := by
  obtain ⟨kind, text, l⟩ := t
  cases kind with
  | integer radix =>
    simp only [atom, integerLiteral, Token.relocate]
    cases Numeral.integer radix text with
    | error e => rfl
    | ok v =>
      dsimp only
      split <;> rfl
  | float =>
    simp only [atom, Token.relocate]
    cases Numeral.float text <;> rfl
  | _ => rfl

theorem closing_relocate (ending : Ending) (opened : Location) (tokens : List Token) :
    (closing (ending.relocate f) (f opened) (tokens.map (Token.relocate f))).val =
      (closing ending opened tokens).val.relocate f (Token.relocate f) := by
  rw [closing, place_relocate]
  exact accept_relocate (fun _ => rfl) ending ⟨.unclosedForm opened, some (place ending tokens)⟩ tokens

theorem sizeofTarget_relocate (ending : Ending) (tokens : List Token) :
    (sizeofTarget (ending.relocate f) (tokens.map (Token.relocate f))).val =
      (sizeofTarget ending tokens).val.relocate f (SizeofTarget.relocate f) := by
  cases tokens with
  | nil => cases ending <;> rfl
  | cons t rest =>
    change (sizeofTarget _ (t.relocate f :: rest.map (Token.relocate f))).val = _
    simp only [sizeofTarget, Token.relocate_kind]
    split
    · exact Phrase.map_relocate (take_relocate ending t rest) fun _ => rfl
    · exact Phrase.map_relocate (expect_relocate (fun _ => rfl) ending .identifier (t :: rest)) fun _ => rfl
    · exact congrArg (Outcome.refused · _) (unexpected_relocate ending .sizeofTarget (t :: rest))

mutual

theorem expression_relocate (ending : Ending) (tokens : List Token) :
    (expression (ending.relocate f) (tokens.map (Token.relocate f))).val =
      (expression ending tokens).val.relocate f (Expr.relocate f) := by
  match tokens with
  | [] =>
    rw [List.map_nil, expression, expression]
    exact congrArg (Outcome.refused · _) (unexpected_relocate ending .expression [])
  | t :: rest =>
    change (expression _ (t.relocate f :: rest.map (Token.relocate f))).val = _
    rw [expression, expression]
    change (if t.kind = .openParen then _ else if startsExpression t = true then _ else _ : Phrase Expr _).val = _
    split
    · refine Phrase.bind_relocate (take_relocate ending t rest) ?_
      intro _ inner hlt _
      exact form_relocate ending t.location inner
    · split
      · exact Phrase.check_relocate (take_relocate ending t rest) atom_relocate
      · exact congrArg (Outcome.refused · _) (unexpected_relocate ending .expression (t :: rest))
termination_by (tokens.length, 0)

theorem form_relocate (ending : Ending) (opened : Location) (tokens : List Token) :
    (form (ending.relocate f) (f opened) (tokens.map (Token.relocate f))).val =
      (form ending opened tokens).val.relocate f (Expr.relocate f) := by
  match tokens with
  | [] =>
    rw [List.map_nil, form, form]
    exact congrArg (Outcome.refused · _) (unexpected_relocate ending .operatorOrSizeof [])
  | t :: rest =>
    change (form _ _ (t.relocate f :: rest.map (Token.relocate f))).val = _
    rw [form, form]
    simp only [Token.relocate_kind]
    split
    · refine Phrase.bind_relocate (take_relocate ending t rest) ?_
      intro _ inner _ _
      refine Phrase.bind_relocate (sizeofTarget_relocate ending inner) ?_
      intro target after _ _
      exact Phrase.map_relocate (closing_relocate ending opened after) fun _ => rfl
    · refine Phrase.bind_relocate (take_relocate ending t rest) ?_
      intro _ inner hlt _
      refine Phrase.map_relocate (operands_relocate ending opened inner) ?_
      intro es
      simp only [Expr.relocate, Expr.relocateAll_eq_map, Option.map_some]
    · exact congrArg (Outcome.refused · _) (unexpected_relocate ending .operatorOrSizeof (t :: rest))
termination_by (tokens.length, 0)

theorem operands_relocate (ending : Ending) (opened : Location) (tokens : List Token) :
    (operands (ending.relocate f) (f opened) (tokens.map (Token.relocate f))).val =
      (operands ending opened tokens).val.relocate f (List.map (Expr.relocate f)) := by
  rw [operands, operands]
  simp only [expressionAhead_relocate]
  split
  · refine Phrase.bind_relocate (expression_relocate ending tokens) ?_
    intro e rest hlt _
    exact Phrase.map_relocate (operands_relocate ending opened rest) fun _ => rfl
  · exact Phrase.map_relocate (closing_relocate ending opened tokens) fun _ => rfl
termination_by (tokens.length, 1)

end

theorem initializer_relocate (ending : Ending) (tokens : List Token) :
    (initializer (ending.relocate f) (tokens.map (Token.relocate f))).val =
      (initializer ending tokens).val.relocate f (Expr.relocate f) := by
  refine Phrase.bindIf_relocate (expression_relocate ending tokens) ?_ ?_ fun _ => rfl
  · intro rest
    cases rest <;> rfl
  · intro value rest _ _
    refine Phrase.bind_relocate (expect_relocate (fun _ => rfl) ending .expression rest) ?_
    intro _ after _ _
    refine Phrase.map_relocate (expression_relocate ending after) ?_
    intro count
    simp only [Expr.relocate, Expr.relocate_location]

theorem initializers_relocate (ending : Ending) (tokens : List Token) :
    (initializers (ending.relocate f) (tokens.map (Token.relocate f))).val =
      (initializers ending tokens).val.relocate f (List.map (Expr.relocate f)) := by
  rw [initializers, initializers]
  refine Phrase.bindIf_relocate (initializer_relocate ending tokens) ?_ ?_ fun _ => rfl
  · intro rest
    cases rest <;> rfl
  · intro value rest hlt _
    refine Phrase.bind_relocate (expect_relocate (fun _ => rfl) ending .expression rest) ?_
    intro _ after hlt' _
    exact Phrase.map_relocate (initializers_relocate ending after) fun _ => rfl
termination_by tokens.length

theorem declaredName_relocate (ending : Ending) (tokens : List Token) :
    (declaredName (ending.relocate f) (tokens.map (Token.relocate f))).val =
      (declaredName ending tokens).val.relocate f id :=
  Phrase.map_relocate (expect_relocate (fun _ => rfl) ending .identifier tokens) fun _ => rfl

theorem elementType_relocate (ending : Ending) (tokens : List Token) :
    (elementType (ending.relocate f) (tokens.map (Token.relocate f))).val =
      (elementType ending tokens).val.relocate f id :=
  Phrase.map_relocate (expect_relocate (fun _ => rfl) ending .type tokens) fun _ => rfl

theorem equals_relocate (ending : Ending) (tokens : List Token) :
    (equals (ending.relocate f) (tokens.map (Token.relocate f))).val =
      (equals ending tokens).val.relocate f (Token.relocate f) :=
  expect_relocate (fun _ => rfl) ending .equals tokens

theorem filePath_relocate (ending : Ending) (tokens : List Token) :
    (filePath (ending.relocate f) (tokens.map (Token.relocate f))).val =
      (filePath ending tokens).val.relocate f (Token.relocate f) :=
  expect_relocate (fun _ => rfl) ending .filePath tokens

/-- The item at the front of tokens that are moved is the item at their front, moved. -/
theorem item_relocate (ending : Ending) (t : Token) (rest : List Token) :
    (item (ending.relocate f) (t.relocate f) (rest.map (Token.relocate f))).val =
      (item ending t rest).val.relocate f (Item.relocate f) := by
  have htake := take_relocate (f := f) ending t rest
  unfold item
  simp only [Token.relocate_kind, Token.relocate_text]
  split
  · split
    · rfl
    · split
      · refine Phrase.bind_relocate htake fun _ inner _ _ => ?_
        exact Phrase.map_relocate (expression_relocate ending inner) fun _ => rfl
      · exact Phrase.map_relocate htake fun _ => rfl
  · exact Phrase.map_relocate htake fun _ => rfl
  · refine Phrase.bind_relocate htake fun _ r₁ _ _ => ?_
    refine Phrase.bind_relocate (declaredName_relocate ending r₁) fun name r₂ _ _ => ?_
    refine Phrase.bind_relocate (elementType_relocate ending r₂) fun ty r₃ _ _ => ?_
    refine Phrase.bind_relocate (equals_relocate ending r₃) fun _ r₄ _ _ => ?_
    refine Phrase.map_relocate (initializers_relocate ending r₄) fun es => ?_
    simp only [Item.relocate, Statement.relocate, Expr.relocateAll_eq_map, Option.map_some, Token.relocate_location, id]
  · refine Phrase.bind_relocate htake fun _ r₁ _ _ => ?_
    refine Phrase.bind_relocate (declaredName_relocate ending r₁) fun name r₂ _ _ => ?_
    refine Phrase.bind_relocate (equals_relocate ending r₂) fun _ r₃ _ _ => ?_
    exact Phrase.map_relocate (expression_relocate ending r₃) fun _ => rfl
  · refine Phrase.bind_relocate htake fun _ r₁ _ _ => ?_
    refine Phrase.bind_relocate (declaredName_relocate ending r₁) fun name r₂ _ _ => ?_
    exact Phrase.map_relocate (filePath_relocate ending r₂) fun _ => rfl
  · refine Phrase.bind_relocate htake fun _ r₁ _ _ => ?_
    exact Phrase.map_relocate (filePath_relocate ending r₁) fun _ => rfl
  · change (if startsExpression t = true then _ else _ : Phrase Item _).val = _
    split
    · exact Phrase.map_relocate (expression_relocate ending (t :: rest)) fun _ => rfl
    · exact congrArg (Outcome.refused · _) (unexpected_relocate ending .statement (t :: rest))

end Grammar

end AvmAssembler
