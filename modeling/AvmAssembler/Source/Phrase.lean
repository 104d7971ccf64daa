import AvmAssembler.Fault
import AvmAssembler.InstructionSet
import AvmAssembler.Number.Numeral

/-! # Reading phrases from tokens

A phrase is read from the front of the tokens ahead. Its outcome is a value with the tokens after it, or a fault with
the tokens at which reading stopped, or a numeral that denotes no number. Reading a phrase uses up at least one token,
and a fault never lies further ahead than the tokens that were given; both are part of the type, so that readers may
call each other without a bound on their depth.
-/

namespace AvmAssembler

inductive Outcome (α : Type) where
  | read (value : α) (rest : List Token)
  | refused (fault : Fault) (rest : List Token)
  | unreadable (error : NumeralError)

namespace Outcome

variable {α β : Type}

/-- A value leaves fewer tokens than were given and a fault no more. -/
def Within (tokens : List Token) : Outcome α → Prop
  | read _ rest => rest.length < tokens.length
  | refused _ rest => rest.length ≤ tokens.length
  | unreadable _ => True

def map (f : α → β) : Outcome α → Outcome β
  | read a rest => read (f a) rest
  | refused fault rest => refused fault rest
  | unreadable e => unreadable e

end Outcome

/-- An outcome that uses up tokens. -/
abbrev Phrase (α : Type) (tokens : List Token) := { o : Outcome α // o.Within tokens }

namespace Phrase

variable {α β : Type} {tokens : List Token}

/-- A fault at the tokens given. -/
def refuse (fault : Fault) : Phrase α tokens :=
  ⟨.refused fault tokens, Nat.le_refl _⟩

def map (f : α → β) (p : Phrase α tokens) : Phrase β tokens :=
  ⟨p.val.map f, by
    obtain ⟨o, h⟩ := p
    cases o <;> exact h⟩

/-- Go on with a phrase that starts at the tokens after the first. -/
def bind (p : Phrase α tokens)
    (f : α → (rest : List Token) → rest.length < tokens.length → Phrase β rest) : Phrase β tokens :=
  match p with
  | ⟨.read a rest, h⟩ =>
    ⟨(f a rest h).val, by
      have hf := (f a rest h).property
      have hr : rest.length < tokens.length := h
      cases ho : (f a rest h).val with
      | read b after => rw [ho] at hf; exact Nat.lt_trans hf hr
      | refused fault after => rw [ho] at hf; exact Nat.le_of_lt (Nat.lt_of_le_of_lt hf hr)
      | unreadable e => trivial⟩
  | ⟨.refused fault rest, h⟩ => ⟨.refused fault rest, h⟩
  | ⟨.unreadable e, _⟩ => ⟨.unreadable e, trivial⟩

/-- Continue only if the tokens after the phrase call for it. -/
def bindIf (p : Phrase α tokens) (continues : List Token → Bool)
    (f : α → (rest : List Token) → rest.length < tokens.length → Phrase β rest) (finish : α → β) :
    Phrase β tokens :=
  match p with
  | ⟨.read a rest, h⟩ =>
    if continues rest then Phrase.bind ⟨.read a rest, h⟩ f else ⟨.read (finish a) rest, h⟩
  | ⟨.refused fault rest, h⟩ => ⟨.refused fault rest, h⟩
  | ⟨.unreadable e, _⟩ => ⟨.unreadable e, trivial⟩

/-- Check the value; a fault is raised at the tokens after the phrase. -/
def check (p : Phrase α tokens) (f : α → Except (Fault ⊕ NumeralError) β) : Phrase β tokens :=
  match p with
  | ⟨.read a rest, h⟩ =>
    match f a with
    | .ok b => ⟨.read b rest, h⟩
    | .error (.inl fault) => ⟨.refused fault rest, Nat.le_of_lt h⟩
    | .error (.inr e) => ⟨.unreadable e, trivial⟩
  | ⟨.refused fault rest, h⟩ => ⟨.refused fault rest, h⟩
  | ⟨.unreadable e, _⟩ => ⟨.unreadable e, trivial⟩

end Phrase

end AvmAssembler
