import AvmAssembler.Proofs.Source.Boundary

/-! # Texts between quotes

A text has many writings as a string literal: a character stands for itself, unless it is a double quote, a backslash or
a line feed, or its escape sequence stands for it, if there is one. The inside of a literal is decoded to the text that
it writes, and nothing else is decoded.
-/

namespace AvmAssembler.Lexeme

/-- The letter of the escape sequence that stands for a character. -/
def letter? (c : Char) : Option Char :=
  match c with
  | '\x00' => some '0'
  | '\x07' => some 'a'
  | '\x08' => some 'b'
  | '\x1b' => some 'e'
  | '\x0c' => some 'f'
  | '\n' => some 'n'
  | '\r' => some 'r'
  | '\t' => some 't'
  | '\x0b' => some 'v'
  | '\\' => some '\\'
  | '"' => some '"'
  | '\'' => some '\''
  | _ => none

/-- No two escape sequences mean the same character. -/
theorem escape?_eq_some_iff {c letter : Char} : escape? letter = some c ↔ letter? c = some letter := by
  constructor
  · intro h
    unfold escape? at h
    split at h <;> cases h <;> rfl
  · intro h
    unfold letter? at h
    split at h <;> cases h <;> rfl

/-- The characters write the text between double quotes. -/
inductive Quotes : (text written : List Char) → Prop
  | nil : Quotes [] []
  | raw {c : Char} {text written : List Char} : c ≠ '"' → c ≠ '\\' → c ≠ '\n' → Quotes text written →
      Quotes (c :: text) (c :: written)
  | escape {c letter : Char} {text written : List Char} : letter? c = some letter → Quotes text written →
      Quotes (c :: text) ('\\' :: letter :: written)

variable {cs text written : List Char}

theorem stringBody_of_quotes (h : Quotes text written) (rest : List Char) :
    stringBody (written ++ '"' :: rest) = ⟨.ok text, written ++ ['"'], rest⟩ := by
  induction h with
  | nil => exact stringBody_quote rest
  | raw hquote hescape hnewline _ ih =>
    rw [List.cons_append, stringBody_plain hquote hnewline hescape, ih]
    rfl
  | escape hletter _ ih =>
    rw [List.cons_append, List.cons_append, stringBody_escape (escape?_eq_some_iff.2 hletter), ih]
    rfl

/-- What is decoded to a text is a writing of it, with the closing quote behind. -/
theorem quotes_of_stringBody (h : (stringBody cs).text = .ok text) :
    ∃ written, (stringBody cs).raw = written ++ ['"'] ∧ Quotes text written := by
  fun_induction stringBody cs generalizing text with
  | case1 | case3 | case4 | case5 | case7 => cases h
  | case2 rest =>
    cases h
    exact ⟨[], rfl, .nil⟩
  | case6 c after hc d hd ih =>
    obtain ⟨inner, hinner, rfl⟩ := push_eq_ok h
    obtain ⟨written, hraw, hquotes⟩ := ih hinner
    exact ⟨'\\' :: c :: written, congrArg (['\\', c] ++ ·) hraw, .escape (escape?_eq_some_iff.1 hd) hquotes⟩
  | case8 c after hquote hnewline hend hbreak hescape ih =>
    obtain ⟨inner, hinner, rfl⟩ := push_eq_ok h
    obtain ⟨written, hraw, hquotes⟩ := ih hinner
    exact ⟨c :: written, congrArg ([c] ++ ·) hraw,
      .raw hquote (ne_backslash_of_cases hend hescape) hnewline hquotes⟩

end AvmAssembler.Lexeme
