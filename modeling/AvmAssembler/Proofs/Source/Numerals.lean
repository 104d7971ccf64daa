import Mathlib.Computability.RegularExpressions
import AvmAssembler.Proofs.Source.Vocabulary

/-! # Numerals

The integers of each base and the numbers with a fraction as regular expressions. A text made of the characters of
numerals is a lexeme of a number exactly when it matches the expression of the kind, and all of it is the text of the
token then.
-/

namespace AvmAssembler

/-! ## Patterns -/

namespace Numeral

def oneOf (cs : List Char) : RegularExpression Char :=
  cs.foldr (fun c p => .char c + p) 0

def run (cs : List Char) : RegularExpression Char :=
  oneOf cs * (oneOf cs).star

def sign : RegularExpression Char :=
  1 + .char '-'

def digits : Radix → List Char
  | .decimal => "0123456789".toList
  | .hexadecimal => "0123456789abcdefABCDEF".toList
  | .octal => "01234567".toList
  | .binary => "01".toList

def announcement : Radix → RegularExpression Char
  | .decimal => 1
  | .hexadecimal => .char '0' * oneOf ['x', 'X']
  | .octal => .char '0' * oneOf ['o', 'O']
  | .binary => .char '0' * oneOf ['b', 'B']

def pattern (radix : Radix) : RegularExpression Char :=
  sign * (announcement radix * run (digits radix))

def fractionPattern : RegularExpression Char :=
  sign * (run (digits .decimal) * (.char '.' * run (digits .decimal)))

variable {cs w : List Char}

theorem mem_char {c : Char} : w ∈ (RegularExpression.char c).matches' ↔ w = [c] := Iff.rfl

theorem mem_oneOf : w ∈ (oneOf cs).matches' ↔ ∃ c ∈ cs, w = [c] := by
  induction cs with
  | nil => simp [oneOf]
  | cons c cs ih =>
    have hcons : oneOf (c :: cs) = .char c + oneOf cs := rfl
    rw [hcons, RegularExpression.matches'_add, Language.mem_add, ih, mem_char, List.exists_mem_cons_iff]

theorem mem_run : w ∈ (run cs).matches' ↔ w ≠ [] ∧ ∀ c ∈ w, c ∈ cs := by
  rw [run, RegularExpression.matches'_mul, RegularExpression.matches'_star, Language.mem_mul]
  constructor
  · rintro ⟨front, hfront, back, hback, rfl⟩
    obtain ⟨c, hc, rfl⟩ := mem_oneOf.1 hfront
    obtain ⟨pieces, rfl, hpieces⟩ := Language.mem_kstar.1 hback
    refine ⟨by simp, List.forall_mem_cons.2 ⟨hc, fun d hd => ?_⟩⟩
    obtain ⟨piece, hpiece, hd⟩ := List.mem_flatten.1 hd
    obtain ⟨e, he, rfl⟩ := mem_oneOf.1 (hpieces piece hpiece)
    exact List.mem_singleton.1 hd ▸ he
  · rintro ⟨hne, hall⟩
    obtain ⟨c, rest, rfl⟩ := List.exists_cons_of_ne_nil hne
    obtain ⟨hc, hrest⟩ := List.forall_mem_cons.1 hall
    refine ⟨[c], mem_oneOf.2 ⟨c, hc, rfl⟩, rest, ?_, rfl⟩
    have hsplit : rest = (rest.map fun d => [d]).flatten := by rw [← List.flatMap_def, List.flatMap_singleton']
    refine Language.mem_kstar.2 ⟨rest.map fun d => [d], hsplit, fun piece hpiece => ?_⟩
    obtain ⟨d, hd, rfl⟩ := List.mem_map.1 hpiece
    exact mem_oneOf.2 ⟨d, hrest d hd, rfl⟩

theorem mem_sign : w ∈ sign.matches' ↔ ∃ negative : Bool, w = if negative then ['-'] else [] := by
  rw [sign, RegularExpression.matches'_add, Language.mem_add, RegularExpression.matches'_epsilon, Language.mem_one,
    mem_char]
  simp

theorem ofLetter?_eq_some {letter : Char} {radix : Radix} : Radix.ofLetter? letter = some radix ↔
    (radix = .hexadecimal ∧ (letter = 'x' ∨ letter = 'X')) ∨ (radix = .octal ∧ (letter = 'o' ∨ letter = 'O')) ∨
      (radix = .binary ∧ (letter = 'b' ∨ letter = 'B')) := by
  constructor
  · intro h
    unfold Radix.ofLetter? at h
    repeat' split at h
    all_goals cases h
    · exact .inl ⟨rfl, ‹_›⟩
    · exact .inr (.inl ⟨rfl, ‹_›⟩)
    · exact .inr (.inr ⟨rfl, ‹_›⟩)
  · rintro (⟨rfl, rfl | rfl⟩ | ⟨rfl, rfl | rfl⟩ | ⟨rfl, rfl | rfl⟩) <;> rfl

theorem mem_announcement {radix : Radix} : w ∈ (announcement radix).matches' ↔ radix.Announces w := by
  have hletter : ∀ letters : List Char, (∀ letter, Radix.ofLetter? letter = some radix ↔ letter ∈ letters) →
      (w ∈ (RegularExpression.char '0' * oneOf letters).matches' ↔
        ∃ letter, Radix.ofLetter? letter = some radix ∧ w = ['0', letter]) := by
    intro letters hletters
    simp only [RegularExpression.matches'_mul, Language.mem_mul, mem_char, mem_oneOf, hletters]
    constructor
    · rintro ⟨front, rfl, back, ⟨letter, hletter, rfl⟩, rfl⟩
      exact ⟨letter, hletter, rfl⟩
    · rintro ⟨letter, hletter, rfl⟩
      exact ⟨['0'], rfl, [letter], ⟨letter, hletter, rfl⟩, rfl⟩
  cases radix with
  | decimal => exact Iff.rfl
  | hexadecimal => exact hletter ['x', 'X'] fun letter => by simp [ofLetter?_eq_some]
  | octal => exact hletter ['o', 'O'] fun letter => by simp [ofLetter?_eq_some]
  | binary => exact hletter ['b', 'B'] fun letter => by simp [ofLetter?_eq_some]

/-- A numeral of a base has a sign or none, the announcement of the base and one or more of its digits. -/
theorem mem_pattern {radix : Radix} : w ∈ (pattern radix).matches' ↔
    ∃ (negative : Bool) (front back : List Char), w = (if negative then ['-'] else []) ++ (front ++ back) ∧
      radix.Announces front ∧ back ≠ [] ∧ ∀ c ∈ back, c ∈ digits radix := by
  simp only [pattern, RegularExpression.matches'_mul, Language.mem_mul, mem_sign, mem_announcement, mem_run]
  constructor
  · rintro ⟨_, ⟨negative, rfl⟩, _, ⟨front, hfront, back, hback, rfl⟩, rfl⟩
    exact ⟨negative, front, back, rfl, hfront, hback⟩
  · rintro ⟨negative, front, back, rfl, hfront, hback⟩
    exact ⟨_, ⟨negative, rfl⟩, _, ⟨front, hfront, back, hback, rfl⟩, rfl⟩

/-- A number with a fraction has a sign or none, and digits in front of the point and behind it. -/
theorem mem_fractionPattern : w ∈ fractionPattern.matches' ↔
    ∃ (negative : Bool) (whole places : List Char), w = (if negative then ['-'] else []) ++ (whole ++ '.' :: places) ∧
      (whole ≠ [] ∧ ∀ c ∈ whole, c ∈ digits .decimal) ∧ places ≠ [] ∧ ∀ c ∈ places, c ∈ digits .decimal := by
  simp only [fractionPattern, RegularExpression.matches'_mul, Language.mem_mul, mem_sign, mem_char, mem_run]
  constructor
  · rintro ⟨_, ⟨negative, rfl⟩, _, ⟨whole, hwhole, _, ⟨_, rfl, places, hplaces, rfl⟩, rfl⟩, rfl⟩
    exact ⟨negative, whole, places, rfl, hwhole, hplaces⟩
  · rintro ⟨negative, whole, places, rfl, hwhole, hplaces⟩
    exact ⟨_, ⟨negative, rfl⟩, _, ⟨whole, hwhole, _, ⟨['.'], rfl, places, hplaces, rfl⟩, rfl⟩, rfl⟩

/-! ## Characters of numerals -/

/-- The characters that numerals and their mistakes are made of: ASCII letters and digits, underscores, points and minus
signs. -/
def isCharacter (c : Char) : Bool :=
  c.isAlphanum || c = '_' || c = '.' || c = '-'

theorem toNat_lt_of_isWordChar {c : Char} (h : Lexeme.isWordChar c = true) : c.toNat < 128 := by
  simp only [Lexeme.isWordChar, Char.isAlphanum, Bool.or_eq_true, decide_eq_true_eq, Lexeme.isAlpha_iff,
    Text.Digit.isDigit_iff] at h
  rcases h with (hletter | hdigit) | rfl
  · omega
  · omega
  · decide

theorem toNat_lt_of_isCharacter {c : Char} (h : isCharacter c = true) : c.toNat < 128 := by
  simp only [isCharacter, Bool.or_eq_true, decide_eq_true_eq] at h
  rcases h with ((hword | rfl) | rfl) | rfl
  · exact toNat_lt_of_isWordChar (by simp [Lexeme.isWordChar, hword])
  all_goals decide

theorem isCharacter_iff {c : Char} :
    isCharacter c = true ↔ c.isAlphanum = true ∨ c = '_' ∨ c = '.' ∨ c = '-' := by
  simp [isCharacter, or_assoc]

/-- What holds of the first 128 characters one by one holds of every character among them. -/
theorem ascii_cases {p : Char → Prop} (h : ∀ n < 128, p (Char.ofNat n)) {c : Char} (hc : c.toNat < 128) : p c := by
  have hp := h c.toNat hc
  rwa [Char.ofNat_toNat] at hp

/-- None of these characters belongs to a gap. -/
theorem not_gap_of_isCharacter {c : Char} (h : isCharacter c = true) : Lexeme.isBlank c = false ∧ c ≠ '#' := by
  have hc := toNat_lt_of_isCharacter h
  exact ascii_cases (p := fun c => isCharacter c = true → Lexeme.isBlank c = false ∧ c ≠ '#') (by decide +kernel) hc h

/-- Among the ASCII characters, those that are taken for digits of a base are its digits. -/
theorem mem_digits_iff {radix : Radix} {c : Char} (hc : c.toNat < 128) : c ∈ digits radix ↔ radix.admits c = true := by
  refine ascii_cases (p := fun c => c ∈ digits radix ↔ radix.admits c = true) ?_ hc
  cases radix <;> decide +kernel

theorem toNat_lt_of_mem_digits {radix : Radix} {c : Char} (h : c ∈ digits radix) : c.toNat < 128 := by
  have hall : (digits radix).all (fun d => d.toNat < 128) = true := by
    cases radix <;> decide
  exact of_decide_eq_true (List.all_eq_true.1 hall c h)

theorem mem_digits_decimal {c : Char} : c ∈ digits .decimal ↔ c.isDigit = true := by
  constructor
  · intro h
    have hdigits : (digits .decimal).all Char.isDigit = true := by decide
    exact List.all_eq_true.1 hdigits c h
  · intro h
    have hc := toNat_lt_of_isWordChar (Lexeme.isWordChar_of_isDigit h)
    exact ascii_cases (p := fun c => c.isDigit = true → c ∈ digits .decimal) (by decide +kernel) hc h

end Numeral

/-! ## Lexemes of numbers -/

namespace Lexeme

variable {c : Char} {cs sign seen : List Char}

/-- The text of the lexeme, if it is a token, consists of the characters that it covers. -/
def IsVerbatim (l : Lexeme) : Prop :=
  ∀ kind text, l.content = .token kind text → text = l.raw

theorem fault_isVerbatim (f : LexicalFault) (raw rest : List Char) : (fault f raw rest).IsVerbatim := by
  rintro kind text ⟨⟩

theorem token_isVerbatim (kind : TokenKind) (raw rest : List Char) : IsVerbatim ⟨.token kind raw, raw, rest⟩ := by
  rintro _ _ ⟨⟩
  rfl

theorem radixDigits_isVerbatim (radix : Radix) : (radixDigits radix seen cs).IsVerbatim := by
  simp only [radixDigits]
  repeat' split
  all_goals first | exact fault_isVerbatim _ _ _ | exact token_isVerbatim _ _ _

theorem fraction_isVerbatim : (fraction seen cs).IsVerbatim := by
  simp only [fraction]
  repeat' split
  all_goals first | exact fault_isVerbatim _ _ _ | exact token_isVerbatim _ _ _

theorem decimalDigits_isVerbatim : (decimalDigits sign cs).IsVerbatim := by
  simp only [decimalDigits]
  repeat' split
  all_goals first | exact fraction_isVerbatim | exact fault_isVerbatim _ _ _ | exact token_isVerbatim _ _ _

theorem unsigned_isVerbatim : (unsigned sign cs).IsVerbatim := by
  unfold unsigned
  repeat' split
  all_goals first | exact radixDigits_isVerbatim _ | exact decimalDigits_isVerbatim

theorem number_isVerbatim : (number cs).IsVerbatim := by
  unfold number
  split <;> exact unsigned_isVerbatim

theorem takeWhile_all {p : Char → Bool} {cs : List Char} (h : ∀ c ∈ cs, p c = true) :
    cs.takeWhile p = cs ∧ cs.dropWhile p = [] :=
  ⟨List.takeWhile_eq_self_iff.2 h, List.dropWhile_eq_nil_iff.2 h⟩

theorem decimalDigits_of_digits {sign cs : List Char} (h : ∀ c ∈ cs, c.isDigit = true) :
    decimalDigits sign cs = ⟨.token (.integer .decimal) (sign ++ cs), sign ++ cs, []⟩ := by
  obtain ⟨htake, hdrop⟩ := takeWhile_all fun c hc => Text.Digit.isDigit_of_asciiDigit (h c hc)
  simp only [decimalDigits, htake, hdrop]

theorem announced?_digits {cs : List Char} (h : ∀ c ∈ cs, c.isDigit = true) : announced? cs = none := by
  match cs with
  | [] => rfl
  | [c] => rfl
  | z :: c :: cs =>
    have hc := h c (by simp)
    have hnone : Radix.ofLetter? c = none := by
      unfold Radix.ofLetter?
      repeat' split
      all_goals first
        | rfl
        | (rename_i hletter; rcases hletter with rfl | rfl <;> cases hc)
    simp [announced?, hnone]

/-- No digit of any script starts a word. -/
theorem isWordStart_of_isDigit (h : Text.Digit.isDigit c = true) : isWordStart c = false := by
  apply Bool.eq_false_iff.2
  intro hstart
  have hc := Numeral.toNat_lt_of_isWordChar (isWordChar_of_isWordStart hstart)
  have hfalse : isWordStart c = false :=
    Numeral.ascii_cases (p := fun c => Text.Digit.isDigit c = true → isWordStart c = false) (by decide +kernel) hc h
  exact absurd hstart (by simp [hfalse])

theorem scan_number (h : Text.Digit.isDigit c = true ∨ (c = '-' ∧ digitAhead cs = true)) :
    scan c cs = number (c :: cs) := by
  have hstart : isWordStart c = false := by
    rcases h with h | ⟨rfl, -⟩
    · exact isWordStart_of_isDigit h
    · decide
  have hnumber : (Text.Digit.isDigit c || (decide (c = '-') && digitAhead cs)) = true := by
    simpa using h
  simp only [scan, hstart, hnumber, Bool.false_eq_true, if_true, if_false]

theorem unsigned_integer (sign : List Char) {radix : Radix} {front back : List Char} (hfront : radix.Announces front)
    (hne : back ≠ []) (hback : ∀ c ∈ back, c ∈ Numeral.digits radix) :
    unsigned sign (front ++ back) =
      ⟨.token (.integer radix) (sign ++ (front ++ back)), sign ++ (front ++ back), []⟩ := by
  cases radix with
  | decimal =>
    obtain rfl : front = [] := hfront
    have hdigits : ∀ c ∈ back, c.isDigit = true := fun c hc => Numeral.mem_digits_decimal.1 (hback c hc)
    rw [List.nil_append, unsigned_of_not_announced (announced?_digits hdigits), decimalDigits_of_digits hdigits]
  | hexadecimal | octal | binary =>
    obtain ⟨letter, hletter, rfl⟩ := hfront
    have haccepts : ∀ c ∈ back, Radix.accepts _ c = true := fun c hc =>
      (Numeral.mem_digits_iff (Numeral.toNat_lt_of_mem_digits (hback c hc))).1 (hback c hc)
    obtain ⟨htake, hdrop⟩ := takeWhile_all haccepts
    simp [unsigned, hletter, radixDigits, htake, hdrop, hne]

theorem unsigned_fraction (sign : List Char) {whole places : List Char} (hne : whole ≠ [])
    (hwhole : ∀ c ∈ whole, c.isDigit = true) (hne' : places ≠ []) (hplaces : ∀ c ∈ places, c.isDigit = true) :
    unsigned sign (whole ++ '.' :: places) =
      ⟨.token .float (sign ++ (whole ++ '.' :: places)), sign ++ (whole ++ '.' :: places), []⟩ := by
  have hann : announced? (whole ++ '.' :: places) = none := by
    match whole with
    | [] => exact absurd rfl hne
    | [c] => simp [announced?, Radix.ofLetter?]
    | z :: c :: more =>
      have hnone := announced?_digits hwhole
      simpa [announced?] using hnone
  have hdigits : ∀ c ∈ whole, Text.Digit.isDigit c = true := fun c hc => Text.Digit.isDigit_of_asciiDigit (hwhole c hc)
  have hpoint : Text.Digit.isDigit '.' = false := by decide
  have hahead : digitAhead places = true := by
    obtain ⟨c, more, rfl⟩ := List.exists_cons_of_ne_nil hne'
    exact Text.Digit.isDigit_of_asciiDigit (hplaces c (by simp))
  obtain ⟨htake, hdrop⟩ := takeWhile_all hplaces
  rw [unsigned_of_not_announced hann]
  simp only [decimalDigits, List.takeWhile_append_of_pos hdigits, List.dropWhile_append_of_pos hdigits,
    List.takeWhile_cons, List.dropWhile_cons, hpoint, Bool.false_eq_true, if_false, List.append_nil, decide_true,
    hahead, Bool.and_true, if_true]
  simp [fraction, htake, hdrop, hne']

end Lexeme

namespace Terminal

variable {kind : TokenKind} {radix : Radix} {cs w : List Char} {s : String}

/-- A number behind a sign or none is a lexeme. -/
theorem spelledBy_of_unsigned (negative : Bool) (hahead : Lexeme.digitAhead cs = true)
    (h : ∀ sign, Lexeme.unsigned sign cs = ⟨.token kind (sign ++ cs), sign ++ cs, []⟩) :
    SpelledBy ⟨kind, String.ofList ((if negative then ['-'] else []) ++ cs)⟩
      ((if negative then ['-'] else []) ++ cs) := by
  cases negative with
  | true =>
    refine ⟨'-', cs, rfl, ?_⟩
    rw [Lexeme.scan_number (.inr ⟨rfl, hahead⟩)]
    simpa [Lexeme.number] using h ['-']
  | false =>
    obtain ⟨c, rest, rfl⟩ : ∃ c rest, cs = c :: rest := by
      cases cs with
      | nil => cases hahead
      | cons c rest => exact ⟨c, rest, rfl⟩
    have hminus : (c :: rest).head? ≠ some '-' := by
      rintro ⟨⟩
      have hdigit : Text.Digit.isDigit '-' = false := by decide
      exact absurd (hdigit.symm.trans hahead) (by decide)
    refine ⟨c, rest, rfl, ?_⟩
    rw [Lexeme.scan_number (.inl hahead), Lexeme.number_of_ne_minus hminus]
    simpa using h []

theorem spelledBy_integer (negative : Bool) {front back : List Char} (hfront : radix.Announces front) (hne : back ≠ [])
    (hback : ∀ c ∈ back, c ∈ Numeral.digits radix) :
    SpelledBy ⟨.integer radix, String.ofList ((if negative then ['-'] else []) ++ (front ++ back))⟩
      ((if negative then ['-'] else []) ++ (front ++ back)) := by
  refine spelledBy_of_unsigned negative ?_ fun sign => Lexeme.unsigned_integer sign hfront hne hback
  cases radix with
  | decimal =>
    obtain rfl : front = [] := hfront
    obtain ⟨c, rest, rfl⟩ := List.exists_cons_of_ne_nil hne
    exact Text.Digit.isDigit_of_asciiDigit (Numeral.mem_digits_decimal.1 (hback c (by simp)))
  | hexadecimal | octal | binary =>
    obtain ⟨letter, -, rfl⟩ := hfront
    rfl

theorem spelledBy_fraction (negative : Bool) {whole places : List Char} (hne : whole ≠ [])
    (hwhole : ∀ c ∈ whole, c.isDigit = true) (hne' : places ≠ []) (hplaces : ∀ c ∈ places, c.isDigit = true) :
    SpelledBy ⟨.float, String.ofList ((if negative then ['-'] else []) ++ (whole ++ '.' :: places))⟩
      ((if negative then ['-'] else []) ++ (whole ++ '.' :: places)) := by
  refine spelledBy_of_unsigned negative ?_ fun sign => Lexeme.unsigned_fraction sign hne hwhole hne' hplaces
  obtain ⟨c, rest, rfl⟩ := List.exists_cons_of_ne_nil hne
  exact Text.Digit.isDigit_of_asciiDigit (hwhole c (by simp))

/-- The text of a number is its lexeme. -/
theorem SpelledBy.text_eq (h : SpelledBy ⟨kind, s⟩ w) (hkind : (∃ radix, kind = .integer radix) ∨ kind = .float) :
    s = String.ofList w ∧ kind.Admits w ∧ ∃ c cs, w = c :: cs ∧
      (Text.Digit.isDigit c = true ∨ (c = '-' ∧ Lexeme.digitAhead cs = true)) := by
  obtain ⟨c, cs, rfl, hscan⟩ := h
  have hcontent : (Lexeme.scan c cs).content = .token kind s.toList := congrArg Lexeme.content hscan
  have hstarts : Text.Digit.isDigit c = true ∨ (c = '-' ∧ Lexeme.digitAhead cs = true) := by
    rcases hkind with ⟨radix, rfl⟩ | rfl <;> exact Lexeme.scan_starts hcontent
  have hadmits := Lexeme.scan_admits hcontent
  rw [Lexeme.scan_number hstarts] at hscan
  have htext : s.toList = c :: cs := by
    have hverbatim : (Lexeme.number (c :: cs)).IsVerbatim := Lexeme.number_isVerbatim
    have hraw := hverbatim kind s.toList (congrArg Lexeme.content hscan)
    rwa [hscan] at hraw
  exact ⟨String.toList_inj.1 (by rw [htext, String.toList_ofList]), htext ▸ hadmits, c, cs, rfl, hstarts⟩

/-- Among the texts of characters of numerals, those that match the pattern of a base are the lexemes of its
integers. -/
theorem spelledBy_integer_iff (hw : ∀ c ∈ w, Numeral.isCharacter c = true) :
    SpelledBy ⟨.integer radix, s⟩ w ↔ w ∈ (Numeral.pattern radix).matches' ∧ s = String.ofList w := by
  constructor
  · intro h
    obtain ⟨htext, ⟨negative, front, back, rfl, hfront, hne, hback⟩, -⟩ := h.text_eq (.inl ⟨radix, rfl⟩)
    refine ⟨Numeral.mem_pattern.2 ⟨negative, front, back, rfl, hfront, hne, fun c hc => ?_⟩, htext⟩
    exact (Numeral.mem_digits_iff (Numeral.toNat_lt_of_isCharacter (hw c (by simp [hc])))).2 (hback c hc)
  · rintro ⟨hmatch, rfl⟩
    obtain ⟨negative, front, back, rfl, hfront, hne, hback⟩ := Numeral.mem_pattern.1 hmatch
    exact spelledBy_integer negative hfront hne hback

/-- Among the texts of characters of numerals, those that match the pattern of fractions are the lexemes of numbers with
a fraction. -/
theorem spelledBy_fraction_iff (hw : ∀ c ∈ w, Numeral.isCharacter c = true) :
    SpelledBy ⟨.float, s⟩ w ↔ w ∈ Numeral.fractionPattern.matches' ∧ s = String.ofList w := by
  simp only [Numeral.mem_fractionPattern, Numeral.mem_digits_decimal]
  constructor
  · intro h
    obtain ⟨htext, ⟨negative, whole, places, rfl, hwhole, hplaces⟩, c, cs, hcs, hstarts⟩ := h.text_eq (.inr rfl)
    have hne : whole ≠ [] := by
      -- a point starts no number, neither by itself nor behind a minus sign
      rintro rfl
      have hminus : Text.Digit.isDigit '-' = false := by decide
      have hpoint : Text.Digit.isDigit '.' = false := by decide
      cases negative with
      | true =>
        obtain ⟨rfl, rfl⟩ := List.cons.inj hcs
        simp [hminus, Lexeme.digitAhead, hpoint] at hstarts
      | false =>
        obtain ⟨rfl, rfl⟩ := List.cons.inj hcs
        simp [hpoint] at hstarts
    have hascii : ∀ c ∈ whole, c.isDigit = true := by
      intro c hc
      have hlt := Numeral.toNat_lt_of_isCharacter (hw c (by simp [hc]))
      exact Numeral.mem_digits_decimal.1 ((Numeral.mem_digits_iff hlt).2 (hwhole c hc))
    exact ⟨⟨negative, whole, places, rfl, ⟨hne, hascii⟩, hplaces⟩, htext⟩
  · rintro ⟨⟨negative, whole, places, rfl, ⟨hne, hwhole⟩, hne', hplaces⟩, rfl⟩
    exact spelledBy_fraction negative hne hwhole hne' hplaces

end Terminal

end AvmAssembler
