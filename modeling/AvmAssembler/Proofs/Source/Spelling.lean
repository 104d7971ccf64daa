import AvmAssembler.Proofs.Number.Written
import AvmAssembler.Proofs.Source.Numerals
import AvmAssembler.Proofs.Source.Quotation

/-! # Spellings of terminals

How each kind of terminal is written: words and signs stand for themselves, a label has a dot in front, and the text
of a string literal is put between double quotes with a backslash before each character that cannot stand there.
-/

namespace AvmAssembler

namespace Lexeme

def isWord : List Char → Bool
  | [] => false
  | c :: cs => isWordStart c && cs.all isWordChar

/-- The characters between the quotes of a string literal: backslashes, double quotes and line feeds are escaped. -/
def escaped (text : List Char) : List Char :=
  text.flatMap fun c =>
    if c = '\\' then ['\\', '\\'] else if c = '"' then ['\\', '"'] else if c = '\n' then ['\\', 'n'] else [c]

theorem quotes_escaped (text : List Char) : Quotes text (escaped text) := by
  induction text with
  | nil => exact .nil
  | cons c text ih =>
    rw [escaped, List.flatMap_cons]
    by_cases hescape : c = '\\'
    · subst hescape
      exact .escape rfl ih
    by_cases hquote : c = '"'
    · subst hquote
      exact .escape rfl ih
    by_cases hnewline : c = '\n'
    · subst hnewline
      exact .escape rfl ih
    rw [if_neg hescape, if_neg hquote, if_neg hnewline]
    exact .raw hquote hescape hnewline ih

theorem stringBody_escaped (text : List Char) :
    stringBody (escaped text ++ ['"']) = ⟨.ok text, escaped text ++ ['"'], []⟩ :=
  stringBody_of_quotes (quotes_escaped text) []

end Lexeme

def Terminal.spelling (t : Terminal) : String :=
  match t.kind with
  | .string => String.ofList ('"' :: (Lexeme.escaped t.text.toList ++ ['"']))
  | .label => String.ofList ('.' :: t.text.toList)
  | _ => t.text

namespace Terminal

theorem spelledBy_word {s : String} (h : Lexeme.isWord s.toList = true) :
    SpelledBy ⟨TokenKind.ofWord s, s⟩ s.toList := by
  cases hs : s.toList with
  | nil => simp [hs, Lexeme.isWord] at h
  | cons c cs =>
    simp only [hs, Lexeme.isWord, Bool.and_eq_true, List.all_eq_true] at h
    have hall : ∀ d ∈ c :: cs, Lexeme.isWordChar d = true := by
      intro d hd
      rcases List.mem_cons.1 hd with rfl | hd
      · exact Lexeme.isWordChar_of_isWordStart h.1
      · exact h.2 d hd
    obtain ⟨htake, hdrop⟩ := Lexeme.takeWhile_all hall
    refine ⟨c, cs, rfl, ?_⟩
    simp only [Lexeme.scan, h.1, if_true, Lexeme.word, htake, hdrop]
    rw [← hs, String.ofList_toList]

theorem spelledBy_label {s : String} (hne : s ≠ "") (h : ∀ c ∈ s.toList, Lexeme.isWordChar c = true) :
    SpelledBy ⟨.label, s⟩ ('.' :: s.toList) := by
  obtain ⟨htake, hdrop⟩ := Lexeme.takeWhile_all h
  refine ⟨'.', s.toList, rfl, ?_⟩
  have hscan : Lexeme.scan '.' s.toList = Lexeme.dotted s.toList := rfl
  rw [hscan]
  cases hs : s.toList with
  | nil => exact absurd (String.toList_eq_nil_iff.1 hs) hne
  | cons c cs =>
    rw [hs] at htake hdrop
    have hc := h c (by simp [hs])
    have hdot : c ≠ '.' := by
      rintro rfl
      cases hc
    simp only [Lexeme.dotted, hdot, hc, if_true, if_false, htake, hdrop]

theorem spelledBy_decimal (v : Int) : SpelledBy ⟨.integer .decimal, toString v⟩ (toString v).toList := by
  have hdigits : ∀ c ∈ Nat.toDigits 10 v.natAbs, c ∈ Numeral.digits .decimal :=
    fun c hc => Numeral.mem_digits_decimal.2 (isDigit_of_mem_toDigits hc)
  have hannounces : Radix.Announces .decimal [] := rfl
  have hspelled := spelledBy_integer (decide (v < 0)) hannounces Nat.toDigits_ne_nil hdigits
  have hwritten : (if decide (v < 0) then ['-'] else []) ++ ([] ++ Nat.toDigits 10 v.natAbs) = (toString v).toList := by
    rw [toList_toString_int, List.nil_append]
    simp
  rwa [hwritten, String.ofList_toList] at hspelled

/-- A byte in base sixteen, written with two digits. -/
theorem spelledBy_byte {n : Nat} (h : n < 256) :
    SpelledBy ⟨.integer .hexadecimal, "0x" ++ Text.Digit.upperHexPair n⟩
      ("0x" ++ Text.Digit.upperHexPair n).toList := by
  have hall : ∀ d < 16, Text.Digit.upperHex d ∈ Numeral.digits .hexadecimal := by decide
  have hdigits : ∀ c ∈ [Text.Digit.upperHex (n / 16), Text.Digit.upperHex (n % 16)], c ∈ Numeral.digits .hexadecimal := by
    simpa using ⟨hall (n / 16) (by omega), hall (n % 16) (by omega)⟩
  have hannounces : Radix.Announces .hexadecimal ['0', 'x'] := ⟨'x', rfl, rfl⟩
  have hspelled := spelledBy_integer false hannounces (by simp) hdigits
  have hwritten : (if false = true then ['-'] else []) ++
      (['0', 'x'] ++ [Text.Digit.upperHex (n / 16), Text.Digit.upperHex (n % 16)]) =
        ("0x" ++ Text.Digit.upperHexPair n).toList := by
    simp [Text.Digit.upperHexPair_eq h]
  rwa [hwritten, String.ofList_toList] at hspelled

theorem spelledBy_string (s : String) :
    SpelledBy ⟨.string, s⟩ ('"' :: (Lexeme.escaped s.toList ++ ['"'])) := by
  refine ⟨'"', _, rfl, ?_⟩
  have hscan : Lexeme.scan '"' (Lexeme.escaped s.toList ++ ['"']) =
      Lexeme.string (Lexeme.escaped s.toList ++ ['"']) := rfl
  rw [hscan]
  simp [Lexeme.string, Lexeme.stringBody_escaped]

theorem spelledBy_operator (o : Operator) : SpelledBy ⟨.operator o, o.symbol⟩ o.symbol.toList := by
  cases o <;> exact ⟨_, _, rfl, rfl⟩

theorem spelledBy_openParen : SpelledBy ⟨.openParen, "("⟩ ['('] := ⟨_, _, rfl, rfl⟩

theorem spelledBy_closeParen : SpelledBy ⟨.closeParen, ")"⟩ [')'] := ⟨_, _, rfl, rfl⟩

theorem spelledBy_comma : SpelledBy ⟨.comma, ","⟩ [','] := ⟨_, _, rfl, rfl⟩

theorem spelledBy_equals : SpelledBy ⟨.equals, "="⟩ ['='] := ⟨_, _, rfl, rfl⟩

theorem spelledBy_fill : SpelledBy ⟨.fill, ".."⟩ ['.', '.'] := ⟨_, _, rfl, rfl⟩

end Terminal

/-! ## Terminals of the grammar -/

/-- The text is an identifier: a word that is neither a keyword nor a type nor a mnemonic. -/
def isIdentifier (s : String) : Bool :=
  Lexeme.isWord s.toList && TokenKind.ofWord s = .name && !InstructionSet.isMnemonic s

def isLabelName (s : String) : Bool :=
  !s.isEmpty && s.toList.all Lexeme.isWordChar

theorem isIdentifier_iff {s : String} : isIdentifier s = true ↔
    Lexeme.isWord s.toList = true ∧ TokenKind.ofWord s = .name ∧ IsPlainName s := by
  simp [isIdentifier, IsPlainName, and_assoc]

/-- The spelling of the terminal is by itself a lexeme of it. -/
def Terminal.IsLexeme (t : Terminal) : Prop := t.SpelledBy t.spelling.toList

namespace Terminal

theorem isLexeme_name {s : String} (h : isIdentifier s = true) : (name s).IsLexeme := by
  obtain ⟨hword, hkind, -⟩ := isIdentifier_iff.1 h
  simpa [IsLexeme, name, spelling, hkind] using spelledBy_word hword

theorem isLexeme_mnemonic {s : String} {m : Mnemonic} (h : InstructionSet.byName? s = some m) :
    (name s).IsLexeme := by
  have hwords : ∀ m ∈ InstructionSet.table,
      Lexeme.isWord m.name.toList = true ∧ TokenKind.ofWord m.name = .name := by decide
  obtain ⟨hword, hkind⟩ := hwords m (List.mem_of_find?_eq_some h)
  rw [InstructionSet.byName?_name h] at hword hkind
  simpa [IsLexeme, name, spelling, hkind] using spelledBy_word hword

theorem isLexeme_label {s : String} (h : isLabelName s = true) : (label s).IsLexeme := by
  simp only [isLabelName, Bool.and_eq_true, Bool.not_eq_true', List.all_eq_true] at h
  simpa [IsLexeme, label, spelling] using spelledBy_label (by simpa using h.1) h.2

theorem isLexeme_decimal (v : Int) : IsLexeme ⟨.integer .decimal, toString v⟩ :=
  spelledBy_decimal v

theorem isLexeme_string (s : String) : (string s).IsLexeme := by
  simpa [IsLexeme, string, spelling] using spelledBy_string s

theorem isLexeme_keyword (k : Keyword) : (keyword k).IsLexeme := by
  cases k <;> exact spelledBy_word (by decide)

theorem isLexeme_type (t : ElementType) : (type t).IsLexeme := by
  cases t <;> exact spelledBy_word (by decide)

theorem isLexeme_operator (o : Operator) : (operator o).IsLexeme :=
  spelledBy_operator o

end Terminal

end AvmAssembler
