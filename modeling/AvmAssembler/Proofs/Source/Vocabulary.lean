import Mathlib.Data.Nat.Digits.Defs
import AvmAssembler.Proofs.Number.Written
import AvmAssembler.Proofs.Source.Derivation

/-! # The vocabulary

What the tokens of a text look like. Signs, keywords, types and operators have one spelling each, a character literal
has one character, and a numeral consists of a sign, the announcement of its base and digits. An integer that a numeral
denotes is therefore the number that its digits write in its base.
-/

namespace AvmAssembler

/-! ## Numerals in positional notation -/

/-- The characters that announce a base: none for base ten, a zero and a letter for another. -/
def Radix.Announces (radix : Radix) (cs : List Char) : Prop :=
  match radix with
  | .decimal => cs = []
  | _ => ∃ letter, Radix.ofLetter? letter = some radix ∧ cs = ['0', letter]

/-- The characters that are taken for digits of a base. In base ten these are the digits of all scripts, even those
without a value. -/
def Radix.admits (radix : Radix) (c : Char) : Bool :=
  match radix with
  | .decimal => Text.Digit.isDigit c
  | _ => radix.accepts c

def Radix.digit? (radix : Radix) (c : Char) : Option Nat :=
  match radix with
  | .decimal => Text.Digit.value? c
  | _ => (Text.Digit.hexValue? c).filter (· < radix.base)

/-- The parts of a numeral: a sign, the announcement of the base and at least one digit. -/
def Radix.Composes (radix : Radix) (negative : Bool) (announcement digits text : List Char) : Prop :=
  text = (if negative then ['-'] else []) ++ (announcement ++ digits) ∧ radix.Announces announcement ∧ digits ≠ [] ∧
    ∀ c ∈ digits, radix.admits c = true

def Radix.Writes (radix : Radix) (text : List Char) (v : Int) : Prop :=
  ∃ (negative : Bool) (announcement digits : List Char) (values : List Nat),
    radix.Composes negative announcement digits text ∧ digits.mapM radix.digit? = some values ∧
    v = (if negative then -1 else 1) * (Nat.ofDigits radix.base values.reverse : Nat)

/-- The text of a number with a fraction: a sign, digits, a point and at least one ASCII digit. -/
def IsFraction (text : List Char) : Prop :=
  ∃ (negative : Bool) (whole places : List Char), text = (if negative then ['-'] else []) ++ (whole ++ '.' :: places) ∧
    (∀ c ∈ whole, Text.Digit.isDigit c = true) ∧ places ≠ [] ∧ ∀ c ∈ places, c.isDigit = true

/-- The text is one that a token of the kind can have. Names, labels and strings are not restricted. -/
def TokenKind.Admits (kind : TokenKind) (text : List Char) : Prop :=
  match kind with
  | .integer radix => ∃ negative announcement digits, radix.Composes negative announcement digits text
  | .float => IsFraction text
  | .character => ∃ c, text = [c]
  | .comma => text = [',']
  | .equals => text = ['=']
  | .openParen => text = ['(']
  | .closeParen => text = [')']
  | .fill => text = ['.', '.']
  | .keyword k => text = k.word.toList
  | .type t => text = t.name.toList
  | .operator o => text = o.symbol.toList
  | .name | .label | .string => True

/-! ## Lexemes -/

namespace Lexeme

variable {cs sign seen text : List Char} {kind : TokenKind}

theorem word_admits (h : (word cs).content = .token kind text) : kind.Admits text := by
  simp only [word, LexemeContent.token.injEq] at h
  obtain ⟨rfl, rfl⟩ := h
  unfold TokenKind.ofWord
  split
  · rename_i k hk
    have hword := List.find?_some hk
    simp only [decide_eq_true_eq] at hword
    simp [TokenKind.Admits, hword]
  · split
    · rename_i t ht
      have hname := List.find?_some ht
      simp only [decide_eq_true_eq] at hname
      simp [TokenKind.Admits, hname]
    · trivial

theorem dotted_admits (h : (dotted cs).content = .token kind text) : kind.Admits text := by
  unfold dotted at h
  split at h
  · cases h
  · split at h
    · cases h
      rfl
    · split at h
      · cases h
        trivial
      · split at h <;> cases h

theorem radixDigits_content {radix : Radix} (h : (radixDigits radix seen cs).content = .token kind text) :
    kind = .integer radix ∧ ∃ digits, text = seen ++ digits ∧ digits ≠ [] ∧ ∀ c ∈ digits, radix.accepts c = true := by
  simp only [radixDigits] at h
  split at h
  · cases h
  · split at h
    · cases h
    · rename_i hlength
      cases h
      refine ⟨rfl, cs.takeWhile radix.accepts, rfl, ?_, List.all_eq_true.1 List.all_takeWhile⟩
      intro hnil
      simp [hnil] at hlength

theorem fraction_content (h : (fraction seen cs).content = .token kind text) :
    kind = .float ∧ ∃ places, text = seen ++ places ∧ places ≠ [] ∧ ∀ c ∈ places, c.isDigit = true := by
  have hfinish : ∀ {l : Lexeme}, l = (if (seen ++ cs.takeWhile Char.isDigit).length = seen.length then
      fault .missingFraction (seen ++ cs.takeWhile Char.isDigit) (cs.dropWhile Char.isDigit)
      else ⟨.token .float (seen ++ cs.takeWhile Char.isDigit), seen ++ cs.takeWhile Char.isDigit,
        cs.dropWhile Char.isDigit⟩) → l.content = .token kind text →
      kind = .float ∧ ∃ places, text = seen ++ places ∧ places ≠ [] ∧ ∀ c ∈ places, c.isDigit = true := by
    rintro l rfl hl
    split at hl
    · cases hl
    · rename_i hlength
      cases hl
      refine ⟨rfl, cs.takeWhile Char.isDigit, rfl, ?_, List.all_eq_true.1 List.all_takeWhile⟩
      intro hnil
      simp [hnil] at hlength
  simp only [fraction] at h
  split at h
  · split at h
    · cases h
    · exact hfinish rfl h
  · exact hfinish rfl h

theorem takeWhile_ne_nil_of_digitAhead (h : digitAhead cs = true) : cs.takeWhile Text.Digit.isDigit ≠ [] := by
  cases cs with
  | nil => cases h
  | cons c cs =>
    have hc : Text.Digit.isDigit c = true := h
    simp [hc]

theorem decimalDigits_admits {negative : Bool} (hahead : digitAhead cs = true)
    (h : (decimalDigits (if negative then ['-'] else []) cs).content = .token kind text) : kind.Admits text := by
  have hdigits : ∀ c ∈ cs.takeWhile Text.Digit.isDigit, Text.Digit.isDigit c = true :=
    List.all_eq_true.1 List.all_takeWhile
  have hplain : LexemeContent.token (.integer .decimal)
      ((if negative then ['-'] else []) ++ cs.takeWhile Text.Digit.isDigit) = .token kind text → kind.Admits text := by
    intro heq
    cases heq
    exact ⟨negative, [], cs.takeWhile Text.Digit.isDigit, rfl, rfl, takeWhile_ne_nil_of_digitAhead hahead, hdigits⟩
  simp only [decimalDigits] at h
  split at h
  · split at h
    · obtain ⟨rfl, places, rfl, hne, hplaces⟩ := fraction_content h
      exact ⟨negative, cs.takeWhile Text.Digit.isDigit, places, by simp, hdigits, hne, hplaces⟩
    · split at h
      · cases h
      · exact hplain h
  · exact hplain h

theorem unsigned_admits (negative : Bool) (hahead : digitAhead cs = true)
    (h : (unsigned (if negative then ['-'] else []) cs).content = .token kind text) : kind.Admits text := by
  cases hann : announced? cs with
  | none =>
    rw [unsigned_of_not_announced hann] at h
    exact decimalDigits_admits hahead h
  | some radix =>
    obtain ⟨letter, tail, rfl, hread⟩ := unsigned_of_announced (if negative then ['-'] else []) hann
    rw [hread] at h
    obtain ⟨rfl, digits, rfl, hne, hdigits⟩ := radixDigits_content h
    have hletter : Radix.ofLetter? letter = some radix := by simpa [announced?] using hann
    have hradix : radix ≠ .decimal := by
      rintro rfl
      unfold Radix.ofLetter? at hletter
      repeat' split at hletter
      all_goals cases hletter
    cases radix with
    | decimal => exact absurd rfl hradix
    | hexadecimal | octal | binary =>
      exact ⟨negative, ['0', letter], digits, by simp, ⟨letter, hletter, rfl⟩, hne, hdigits⟩

theorem number_admits (hahead : digitAhead cs = true ∨ ∃ rest, cs = '-' :: rest ∧ digitAhead rest = true)
    (h : (number cs).content = .token kind text) : kind.Admits text := by
  rcases hahead with hahead | ⟨rest, rfl, hahead⟩
  · have hminus : cs.head? ≠ some '-' := by
      cases cs with
      | nil => simp
      | cons c cs =>
        rintro ⟨⟩
        have hdigit : Text.Digit.isDigit '-' = false := by decide
        exact absurd (hdigit.symm.trans hahead) (by decide)
    rw [number_of_ne_minus hminus] at h
    exact unsigned_admits false hahead h
  · exact unsigned_admits true hahead h

theorem decimalDigits_kind (h : (decimalDigits sign cs).content = .token kind text) :
    kind = .integer .decimal ∨ kind = .float := by
  simp only [decimalDigits] at h
  split at h
  · split at h
    · exact .inr (fraction_content h).1
    · split at h
      · cases h
      · cases h
        exact .inl rfl
  · cases h
    exact .inl rfl

theorem unsigned_kind (h : (unsigned sign cs).content = .token kind text) :
    (∃ radix, kind = .integer radix) ∨ kind = .float := by
  cases hann : announced? cs with
  | none =>
    rw [unsigned_of_not_announced hann] at h
    exact (decimalDigits_kind h).imp_left fun hkind => ⟨_, hkind⟩
  | some radix =>
    obtain ⟨letter, tail, rfl, hread⟩ := unsigned_of_announced sign hann
    rw [hread] at h
    exact .inl ⟨radix, (radixDigits_content h).1⟩

theorem number_kind (h : (number cs).content = .token kind text) :
    (∃ radix, kind = .integer radix) ∨ kind = .float := by
  unfold number at h
  split at h <;> exact unsigned_kind h

theorem string_admits (h : (string cs).content = .token kind text) : kind.Admits text := by
  simp only [string] at h
  split at h
  · cases h
    trivial
  · cases h

theorem closeCharacter_admits {c : Char} {rest : List Char}
    (h : (closeCharacter c seen rest).content = .token kind text) : kind.Admits text := by
  unfold closeCharacter at h
  split at h
  · cases h
    exact ⟨c, rfl⟩
  all_goals cases h

theorem character_admits (h : (character cs).content = .token kind text) : kind.Admits text := by
  unfold character at h
  split at h
  case h_6 =>
    split at h
    · exact closeCharacter_admits h
    · cases h
  case h_7 =>
    split at h
    · exact closeCharacter_admits h
    · cases h
  all_goals cases h

theorem angle_admits {c : Char} {operator : Operator} (hsymbol : operator.symbol.toList = [c, c])
    (h : (angle c operator cs).content = .token kind text) : kind.Admits text := by
  unfold angle at h
  split at h
  · split at h
    · cases h
      exact hsymbol.symm
    · cases h
  · cases h

theorem single?_admits {c : Char} (h : single? c = some kind) : kind.Admits [c] := by
  unfold single? at h
  split at h <;> cases h <;> rfl

theorem scan_admits {c : Char} (h : (scan c cs).content = .token kind text) : kind.Admits text := by
  unfold scan at h
  split at h
  · exact word_admits h
  split at h
  · rename_i hnumber
    simp only [Bool.or_eq_true, Bool.and_eq_true, decide_eq_true_eq] at hnumber
    refine number_admits ?_ h
    rcases hnumber with hc | ⟨rfl, hcs⟩
    · exact .inl hc
    · exact .inr ⟨cs, rfl, hcs⟩
  split at h
  · exact dotted_admits h
  split at h
  · exact string_admits h
  split at h
  · exact character_admits h
  split at h
  · subst_vars
    exact angle_admits rfl h
  split at h
  · subst_vars
    exact angle_admits rfl h
  split at h
  · rename_i hsingle
    cases h
    exact single?_admits hsingle
  · cases h

end Lexeme

/-! ## First characters -/

/-- A token of the kind can start with the character when the others come next. -/
def TokenKind.Starts (kind : TokenKind) (c : Char) (cs : List Char) : Prop :=
  match kind with
  | .name | .keyword _ | .type _ => Lexeme.isWordStart c = true
  | .integer _ | .float => Text.Digit.isDigit c = true ∨ (c = '-' ∧ Lexeme.digitAhead cs = true)
  | .label | .fill => c = '.'
  | .string => c = '"'
  | .character => c = '\''
  | _ => Lexeme.single? c = some kind ∨ c = '<' ∨ c = '>'

namespace Lexeme

variable {c : Char} {cs text : List Char} {kind : TokenKind}

theorem ofWord_starts (s : String) (h : isWordStart c = true) : (TokenKind.ofWord s).Starts c cs := by
  unfold TokenKind.ofWord
  split
  · exact h
  · split <;> exact h

/-- The first character of a token tells what kinds it may be of. -/
theorem scan_starts (h : (scan c cs).content = .token kind text) : kind.Starts c cs := by
  unfold scan at h
  split at h
  · cases h
    exact ofWord_starts _ ‹_›
  split at h
  · rename_i hnumber
    simp only [Bool.or_eq_true, Bool.and_eq_true, decide_eq_true_eq] at hnumber
    rcases number_kind h with ⟨radix, rfl⟩ | rfl <;> exact hnumber
  split at h
  · unfold dotted at h
    repeat' split at h
    all_goals cases h <;> assumption
  split at h
  · simp only [string] at h
    split at h <;> cases h
    assumption
  split at h
  · unfold character closeCharacter at h
    repeat' split at h
    all_goals cases h <;> assumption
  split at h
  · unfold angle at h
    repeat' split at h
    all_goals cases h <;> exact .inr (.inl ‹_›)
  split at h
  · unfold angle at h
    repeat' split at h
    all_goals cases h <;> exact .inr (.inr ‹_›)
  split at h
  · rename_i hsingle
    cases h
    have hsign := hsingle
    unfold single? at hsingle
    split at hsingle <;> cases hsingle <;> exact .inl hsign
  · cases h

end Lexeme

/-! ## Tokens -/

def Token.IsRegular (t : Token) : Prop := t.kind.Admits t.text.toList

theorem Cursor.next_isRegular {source : Source} {cursor stop : Cursor} {t : Token}
    (h : cursor.next source = (.token t, stop)) : t.IsRegular := by
  unfold next at h
  simp only at h
  split at h
  · cases h
  · split at h
    · rename_i hcontent
      cases h
      simpa [Token.IsRegular] using Lexeme.scan_admits hcontent
    · cases h

theorem Cursor.tokens_isRegular (source : Source) (cursor : Cursor) :
    ∀ t ∈ (cursor.tokens source).1, t.IsRegular := by
  fun_induction cursor.tokens source with
  | case1 cursor t stop h ts ending hrest ih =>
    intro u hu
    rcases List.mem_cons.1 hu with rfl | hu
    · exact next_isRegular h
    · exact ih u (by simpa [hrest] using hu)
  | case2 => simp

theorem tokenize_isRegular (file text : String) : ∀ t ∈ (tokenize file text).1, t.IsRegular :=
  Cursor.tokens_isRegular _ _

/-- A token of a kind with one spelling is the terminal of that spelling. -/
theorem Token.IsRegular.terminal_eq {t : Token} {u : Terminal} (h : t.IsRegular) (hkind : t.kind = u.kind)
    (hspelling : ∀ text, u.kind.Admits text → text = u.text.toList) : t.terminal = u := by
  have htext : t.text = u.text := String.toList_inj.1 (hspelling _ (hkind ▸ h))
  rw [Token.terminal, hkind, htext]

/-! ## Numbers -/

theorem Text.Digit.ofValues_eq_ofDigits (base : Nat) (values : List Nat) :
    ofValues base values = Nat.ofDigits base values.reverse := by
  rw [ofValues, Nat.ofDigits_eq_foldr, List.foldr_reverse]
  congr 1
  funext n d
  simp [Nat.mul_comm, Nat.add_comm]

namespace Radix

variable {radix : Radix} {negative : Bool} {announcement digits text : List Char}

theorem mapM_digit? (hradix : radix ≠ .decimal) (h : ∀ c ∈ digits, radix.accepts c = true) :
    digits.mapM radix.digit? = some (digits.filterMap Text.Digit.hexValue?) := by
  induction digits with
  | nil => rfl
  | cons c digits ih =>
    have hc := h c (by simp)
    unfold accepts at hc
    split at hc
    · rename_i d hd
      have hdigit : radix.digit? c = some d := by
        cases radix with
        | decimal => exact absurd rfl hradix
        | hexadecimal | octal | binary => simpa [digit?, hd] using hc
      rw [List.mapM_cons, hdigit, ih fun e he => h e (by simp [he])]
      simp [hd]
    · cases hc

theorem Composes.head_ne (h : radix.Composes negative announcement digits text) :
    (announcement ++ digits).head? ≠ some '-' := by
  obtain ⟨-, hannouncement, hne, hdigits⟩ := h
  cases radix with
  | decimal =>
    obtain rfl : announcement = [] := hannouncement
    cases digits with
    | nil => exact absurd rfl hne
    | cons c digits =>
      rintro ⟨⟩
      have hdigit : Text.Digit.isDigit '-' = false := by decide
      exact absurd (hdigit.symm.trans (hdigits '-' (by simp))) (by decide)
  | hexadecimal | octal | binary =>
    obtain ⟨letter, -, rfl⟩ := hannouncement
    simp

end Radix

namespace Radix.Composes

variable {radix : Radix} {negative : Bool} {announcement digits text : List Char} {v : Int}

theorem splitSign (h : radix.Composes negative announcement digits text) :
    Numeral.splitSign text = (negative, announcement ++ digits) := by
  rw [h.1]
  exact Numeral.splitSign_append negative h.head_ne

/-- An integer that a numeral is read as is the one that it writes in its base. -/
theorem writes {text : String} (h : radix.Composes negative announcement digits text.toList)
    (hread : Numeral.integer radix text = .ok v) : radix.Writes text.toList v := by
  have hsigned : ∀ n : Nat, Numeral.signed negative n = (if negative then -1 else 1) * (n : Int) := by
    intro n
    cases negative <;> simp [Numeral.signed]
  have hannouncement : radix.Announces announcement := h.2.1
  have hdigits : ∀ c ∈ digits, radix.admits c = true := h.2.2.2
  simp only [Numeral.integer, h.splitSign] at hread
  cases radix with
  | decimal =>
    obtain rfl : announcement = [] := hannouncement
    simp only [List.nil_append] at hread
    split at hread
    · cases hread
    · split at hread
      · cases hread
      · rename_i values hvalues
        cases hread
        refine ⟨negative, [], digits, values, h, hvalues, ?_⟩
        rw [hsigned, Text.Digit.ofValues_eq_ofDigits]
        rfl
  | hexadecimal | octal | binary =>
    obtain ⟨letter, hletter, rfl⟩ := hannouncement
    cases hread
    refine ⟨negative, ['0', letter], digits, _, h, mapM_digit? (by simp) hdigits, ?_⟩
    rw [hsigned, Text.Digit.ofValues_eq_ofDigits]
    rfl

end Radix.Composes

/-- An integer that a numeral denotes is the one that it writes in its base. -/
theorem Token.IsRegular.writes {t : Token} {radix : Radix} {v : Int} (h : t.IsRegular) (hkind : t.kind = .integer radix)
    (hv : t.terminal.Denotes v) : radix.Writes t.text.toList v := by
  unfold IsRegular at h
  rw [hkind] at h
  obtain ⟨negative, announcement, digits, hparts⟩ := h
  have hread : Numeral.integer radix t.text = .ok v := by
    simp only [Terminal.Denotes, Token.terminal_kind, hkind, Token.terminal_text] at hv
    exact hv.1
  exact hparts.writes hread

/-! ## Numerals without a value -/

/-- The character is taken for a digit but has no decimal value. -/
def Text.Digit.IsOrnamental (c : Char) : Prop := isDigit c = true ∧ value? c = none

theorem Text.Digit.exists_isOrnamental {cs : List Char} (hdigits : ∀ c ∈ cs, isDigit c = true)
    (h : cs.mapM value? = none) : ∃ c ∈ cs, IsOrnamental c := by
  induction cs with
  | nil => cases h
  | cons c cs ih =>
    cases hvalue : value? c with
    | none => exact ⟨c, by simp, hdigits c (by simp), hvalue⟩
    | some d =>
      cases hrest : cs.mapM value? with
      | none =>
        obtain ⟨e, he, hornamental⟩ := ih (fun e he => hdigits e (by simp [he])) hrest
        exact ⟨e, by simp [he], hornamental⟩
      | some values => simp [List.mapM_cons, hvalue, hrest] at h

namespace Token

variable {t : Token} {e : NumeralError}

def FailsWith (t : Token) (e : NumeralError) : Prop :=
  (∃ radix, t.kind = .integer radix ∧ Numeral.integer radix t.text = .error e) ∨
    (t.kind = .float ∧ Numeral.float t.text = .error e)

/-- The token is a decimal numeral with too many digits, or a decimal numeral or a fraction with a digit that has no
value. -/
def IsUnreadable (t : Token) : Prop :=
  (t.kind = .integer .decimal ∧ Numeral.digitLimit < t.text.toList.countP Text.Digit.isDigit) ∨
    ((t.kind = .integer .decimal ∨ t.kind = .float) ∧ ∃ c ∈ t.text.toList, Text.Digit.IsOrnamental c)

theorem IsRegular.isUnreadable_of_integer {radix : Radix} (h : t.IsRegular) (hkind : t.kind = .integer radix)
    (he : Numeral.integer radix t.text = .error e) : t.IsUnreadable := by
  unfold IsRegular at h
  rw [hkind] at h
  obtain ⟨negative, announcement, digits, hparts⟩ := h
  have hsplit := hparts.splitSign
  obtain ⟨htext, hannouncement, -, hdigits⟩ := hparts
  simp only [Numeral.integer, hsplit] at he
  cases radix with
  | decimal =>
    obtain rfl : announcement = [] := hannouncement
    simp only [List.nil_append] at he htext
    split at he
    · rename_i hlong
      refine .inl ⟨hkind, Nat.lt_of_lt_of_le hlong ?_⟩
      have hall : digits.countP Text.Digit.isDigit = digits.length := List.countP_eq_length.2 hdigits
      rw [htext, List.countP_append, hall]
      exact Nat.le_trans (List.takeWhile_prefix _).length_le (Nat.le_add_left _ _)
    · split at he
      · rename_i hnone
        obtain ⟨c, hc, hornamental⟩ := Text.Digit.exists_isOrnamental hdigits hnone
        exact .inr ⟨.inl hkind, c, htext ▸ List.mem_append_right _ hc, hornamental⟩
      · cases he
  | hexadecimal | octal | binary => cases he

theorem IsRegular.isUnreadable_of_float (h : t.IsRegular) (hkind : t.kind = .float)
    (he : Numeral.float t.text = .error e) : t.IsUnreadable := by
  unfold IsRegular at h
  rw [hkind] at h
  obtain ⟨negative, whole, places, htext, hwhole, -, hplaces⟩ := h
  have hdigits : ∀ c ∈ whole ++ places, Text.Digit.isDigit c = true := fun c hc =>
    (List.mem_append.1 hc).elim (hwhole c) fun hc => Text.Digit.isDigit_of_asciiDigit (hplaces c hc)
  have hhead : (whole ++ '.' :: places).head? ≠ some '-' := by
    cases whole with
    | nil => simp
    | cons c whole =>
      rintro ⟨⟩
      have hdigit : Text.Digit.isDigit '-' = false := by decide
      exact absurd (hdigit.symm.trans (hwhole '-' (by simp))) (by decide)
  have hsplit : Numeral.splitSign t.text.toList = (negative, whole ++ '.' :: places) := by
    rw [htext]
    exact Numeral.splitSign_append negative hhead
  have hpoint : ∀ c ∈ whole, (decide (c ≠ '.')) = true := by
    intro c hc
    have hdigit : Text.Digit.isDigit '.' = false := by decide
    have hne : c ≠ '.' := by
      rintro rfl
      exact absurd (hdigit.symm.trans (hwhole '.' hc)) (by decide)
    simpa using hne
  simp only [Numeral.float, hsplit, List.takeWhile_append_of_pos hpoint, List.dropWhile_append_of_pos hpoint] at he
  simp only [List.takeWhile_cons, List.dropWhile_cons, ne_eq, not_true_eq_false, decide_false, Bool.false_eq_true,
    if_false, List.append_nil, List.drop_one, List.tail_cons] at he
  split at he
  · rename_i hnone
    obtain ⟨c, hc, hornamental⟩ := Text.Digit.exists_isOrnamental hdigits hnone
    refine .inr ⟨.inr hkind, c, ?_, hornamental⟩
    rw [htext]
    simp only [List.mem_append, List.mem_cons] at hc ⊢
    tauto
  · cases he

/-- Only long decimal numerals and digits without a value keep a numeral of a text from being read. -/
theorem IsRegular.isUnreadable (h : t.IsRegular) (he : t.FailsWith e) : t.IsUnreadable := by
  rcases he with ⟨radix, hkind, he⟩ | ⟨hkind, he⟩
  · exact h.isUnreadable_of_integer hkind he
  · exact h.isUnreadable_of_float hkind he

end Token

end AvmAssembler
