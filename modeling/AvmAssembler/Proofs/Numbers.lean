import AvmAssembler.Proofs.Source.Completeness
import AvmAssembler.Proofs.Source.Numerals
import AvmAssembler.Proofs.Source.Separation
import AvmAssembler.Source.Expr.Value

/-! # Number literals

From the source to the value: which texts are scanned as one number, and what the integers among them are read as. An
integer is what its digits write in positional notation; it has to fit into a word, signed or unsigned, and its value is
the word that stores it.
-/

namespace AvmAssembler

/-! ## Integers in positional notation -/

namespace Radix

variable {radix : Radix} {text : List Char} {v v' : Int}

theorem Announces.append_inj {front front' back back' : List Char} (h : radix.Announces front)
    (h' : radix.Announces front') (heq : front ++ back = front' ++ back') : back = back' := by
  cases radix with
  | decimal =>
    obtain rfl : front = [] := h
    obtain rfl : front' = [] := h'
    exact heq
  | hexadecimal | octal | binary =>
    obtain ⟨letter, -, rfl⟩ := h
    obtain ⟨letter', -, rfl⟩ := h'
    exact (List.append_inj heq rfl).2

/-- A text writes at most one integer in a base. -/
theorem Writes.unique (h : radix.Writes text v) (h' : radix.Writes text v') : v' = v := by
  obtain ⟨negative, front, back, values, hparts, hvalues, rfl⟩ := h
  obtain ⟨negative', front', back', values', hparts', hvalues', rfl⟩ := h'
  have hsplit := hparts.splitSign.symm.trans hparts'.splitSign
  obtain ⟨rfl, heq⟩ := Prod.mk.inj hsplit
  obtain rfl := hparts.2.1.append_inj hparts'.2.1 heq
  rw [Option.some.inj (hvalues'.symm.trans hvalues)]

end Radix

namespace Numeral

variable {radix : Radix} {w : List Char}

/-- What matches the pattern of a base is composed of a sign, an announcement and digits. -/
theorem composes_of_mem_pattern (h : w ∈ (pattern radix).matches') :
    ∃ negative front back, radix.Composes negative front back w ∧ ∀ c ∈ back, c ∈ digits radix := by
  obtain ⟨negative, front, back, hw, hfront, hne, hback⟩ := mem_pattern.1 h
  exact ⟨negative, front, back, ⟨hw, hfront, hne, fun c hc => (mem_digits_iff (toNat_lt_of_mem_digits (hback c hc))).1
    (hback c hc)⟩, hback⟩

/-- An integer of a base has a value, unless it has too many decimal digits. -/
theorem integer_of_mem_pattern (h : w ∈ (pattern radix).matches')
    (hshort : radix = .decimal → w.countP Char.isDigit ≤ digitLimit) :
    ∃ v, integer radix (String.ofList w) = .ok v ∧ radix.Writes w v := by
  obtain ⟨negative, front, back, hparts, hback⟩ := composes_of_mem_pattern h
  have hparts' : radix.Composes negative front back (String.ofList w).toList := by rwa [String.toList_ofList]
  obtain ⟨v, hv⟩ : ∃ v, integer radix (String.ofList w) = .ok v := by
    simp only [integer, hparts'.splitSign]
    cases radix with
    | decimal =>
      obtain rfl : front = [] := hparts.2.1
      have hdigits : ∀ c ∈ back, c.isDigit = true := fun c hc => mem_digits_decimal.1 (hback c hc)
      have hcount : w.countP Char.isDigit = (if negative then ['-'] else []).countP Char.isDigit + back.length := by
        rw [hparts.1, List.countP_append, List.nil_append, List.countP_eq_length.2 hdigits]
      have hrun : ¬digitLimit < (back.takeWhile fun c => (Text.Digit.value? c).isSome).length := by
        have hle := (List.takeWhile_prefix (fun c => (Text.Digit.value? c).isSome) (l := back)).length_le
        have hlimit := hshort rfl
        omega
      simp only [List.nil_append, hrun, if_false, Text.Digit.mapM_value? hdigits]
      exact ⟨_, rfl⟩
    | hexadecimal | octal | binary => exact ⟨_, rfl⟩
  have hwrites := hparts'.writes hv
  rw [String.toList_ofList] at hwrites
  exact ⟨v, hv, hwrites⟩

end Numeral

/-! ## Number literals -/

/-- The location of all of a text that is a single line. -/
theorem Source.locate_line (file : String) {w : List Char} (hne : w ≠ []) (hnewline : '\n' ∉ w) (hreturn : '\r' ∉ w) :
    (ofText file (String.ofList w)).locate {} w.length = ⟨file, 1, 1, w.length, String.ofList w⟩ := by
  have hline : (ofText file (String.ofList w)).line 1 = String.ofList w := by
    simp [line, ofText, Text.splitLines_of_not_mem hnewline, Text.trimReturns_of_not_mem hreturn]
  have hlength : max (w.length : Int) 1 = w.length := by
    have hpos := List.length_pos_iff.2 hne
    omega
  simp only [locate, hline, hlength]
  rfl

section

variable {radix : Radix} {w : List Char} {file : String}

/-- A text made of the characters of numerals is scanned as one token exactly when it is a lexeme of it. -/
theorem Terminal.tokenize_iff_spelledBy {t : Terminal} (hw : ∀ c ∈ w, Numeral.isCharacter c = true) :
    (∃ l l', tokenize file (String.ofList w) = ([⟨t.kind, t.text, l⟩], .complete l')) ↔ t.SpelledBy w := by
  constructor
  · rintro ⟨l, l', htokens⟩
    have hterminals : (tokenize file (String.ofList w)).1.map Token.terminal = [t] := by
      rw [htokens]
      rfl
    exact spelledBy_of_tokenize (fun c hc => Numeral.not_gap_of_isCharacter (hw c hc)) hterminals
      ⟨l', congrArg Prod.snd htokens⟩
  · intro h
    obtain ⟨l', htokens⟩ := tokenize_of_spelledBy h file
    exact ⟨_, l', htokens⟩

/-- An integer that fits into a word is read as its literal, and a wider one is refused where it stands. -/
theorem Expr.read_of_mem_pattern {v : Int} (hw : ∀ c ∈ w, Numeral.isCharacter c = true)
    (h : w ∈ (Numeral.pattern radix).matches') (hread : Numeral.integer radix (String.ofList w) = .ok v) :
    Expr.read (String.ofList w) =
      if Numeral.least ≤ v ∧ v ≤ Numeral.greatest
      then .ok (.integer (some ⟨FileTree.inputName, 1, 1, w.length, String.ofList w⟩) v)
      else .error (.inl ⟨.wideInteger (String.ofList w),
        some ⟨FileTree.inputName, 1, 1, w.length, String.ofList w⟩⟩) := by
  have hspelled : Terminal.SpelledBy ⟨.integer radix, String.ofList w⟩ w :=
    (Terminal.spelledBy_integer_iff hw).2 ⟨h, rfl⟩
  have hne : w ≠ [] := by
    obtain ⟨c, cs, rfl, -⟩ := hspelled
    exact List.cons_ne_nil c cs
  have hnewline : '\n' ∉ w := fun hmem => absurd (hw _ hmem) (by decide)
  have hreturn : '\r' ∉ w := fun hmem => absurd (hw _ hmem) (by decide)
  rw [Expr.read_of_spelledBy hspelled (by simp) rfl, Source.locate_line _ hne hnewline hreturn]
  simp only [Grammar.atom, Grammar.integerLiteral, hread]

end

theorem Cause.message_wideInteger (text : String) :
    (wideInteger text).message = "integer literal '" ++ text ++ "' does not fit in 64 bits" := rfl

/-- The value of an integer literal is its residue modulo `2 ^ 64`. -/
theorem Expr.value_integer (table : SymbolTable) (pending : Pending) (l : Option Location) (v : Int) :
    Expr.value table pending (.integer l v) = .ok (v % 2 ^ 64) := by
  have hmodulus : (Word.modulus : Int) = 2 ^ 64 := rfl
  have hnonneg : 0 ≤ v % 2 ^ 64 := Int.emod_nonneg v (by decide)
  rw [Expr.value, Word.ofInt, hmodulus, Int.toNat_of_nonneg hnonneg]

/-- A text of ASCII letters and digits, underscores, points and minus signs is scanned as one number exactly when it
matches the pattern of the kind of this number, and then all of it is the text of the token. Such an integer, unless it
is one of more than 4300 decimal digits, writes one number in positional notation. It is read as the literal of this
number, with its residue modulo `2 ^ 64` as value, if it lies between `-2 ^ 63` and `2 ^ 64 - 1`, and is refused where
it stands otherwise. -/
theorem numberLiteral_exact (file : String) (w : List Char)
    (hw : ∀ c ∈ w, c.isAlphanum = true ∨ c = '_' ∨ c = '.' ∨ c = '-') :
    (∀ radix text, (∃ l l', tokenize file (String.ofList w) = ([⟨.integer radix, text, l⟩], .complete l')) ↔
      w ∈ (Numeral.pattern radix).matches' ∧ text = String.ofList w) ∧
    (∀ text, (∃ l l', tokenize file (String.ofList w) = ([⟨.float, text, l⟩], .complete l')) ↔
      w ∈ Numeral.fractionPattern.matches' ∧ text = String.ofList w) ∧
    ∀ radix, w ∈ (Numeral.pattern radix).matches' → (radix = .decimal → w.countP Char.isDigit ≤ 4300) →
      ∃ v, radix.Writes w v ∧ (∀ v', radix.Writes w v' → v' = v) ∧
        let location : Location := ⟨FileTree.inputName, 1, 1, w.length, String.ofList w⟩
        (-2 ^ 63 ≤ v ∧ v ≤ 2 ^ 64 - 1 → Expr.read (String.ofList w) = .ok (.integer (some location) v) ∧
          ∀ table pending, Expr.value table pending (.integer (some location) v) = .ok (v % 2 ^ 64)) ∧
        (¬(-2 ^ 63 ≤ v ∧ v ≤ 2 ^ 64 - 1) → ∃ cause, Expr.read (String.ofList w) = .error (.inl ⟨cause, some location⟩) ∧
          cause.category = .grammar ∧
          cause.message = "integer literal '" ++ String.ofList w ++ "' does not fit in 64 bits") := by
  have hcharacter : ∀ c ∈ w, Numeral.isCharacter c = true := fun c hc => Numeral.isCharacter_iff.2 (hw c hc)
  refine ⟨fun radix text => ?_, fun text => ?_, fun radix hmatch hshort => ?_⟩
  · exact (Terminal.tokenize_iff_spelledBy (t := ⟨.integer radix, text⟩) hcharacter).trans
      (Terminal.spelledBy_integer_iff hcharacter)
  · exact (Terminal.tokenize_iff_spelledBy (t := ⟨.float, text⟩) hcharacter).trans
      (Terminal.spelledBy_fraction_iff hcharacter)
  · obtain ⟨v, hv, hwrites⟩ := Numeral.integer_of_mem_pattern hmatch hshort
    have hread := Expr.read_of_mem_pattern hcharacter hmatch hv
    have hbounds : (Numeral.least ≤ v ∧ v ≤ Numeral.greatest) ↔ (-2 ^ 63 ≤ v ∧ v ≤ 2 ^ 64 - 1) := by
      simp only [Numeral.least, Numeral.greatest]
      omega
    refine ⟨v, hwrites, fun v' hwrites' => hwrites.unique hwrites', fun hfits => ?_, fun hwide => ?_⟩
    · rw [if_pos (hbounds.2 hfits)] at hread
      exact ⟨hread, fun table pending => Expr.value_integer table pending _ v⟩
    · rw [if_neg (fun hfits => hwide (hbounds.1 hfits))] at hread
      exact ⟨_, hread, rfl, Cause.message_wideInteger _⟩

/-- The least integer literal, in base sixteen, is scanned as one number and has the word with only the top bit set as
its value; the least integer above the greatest literal, in base ten, is refused. -/
theorem numberLiteral_exact_bounds :
    (∃ l l', tokenize "" (String.ofList "-0x8000000000000000".toList) =
      ([⟨.integer .hexadecimal, String.ofList "-0x8000000000000000".toList, l⟩], .complete l')) ∧
    (∃ l, Expr.read (String.ofList "-0x8000000000000000".toList) = .ok (.integer l (-2 ^ 63)) ∧
      Expr.value {} [] (.integer l (-2 ^ 63)) = .ok (2 ^ 63)) ∧
    ∃ cause l, Expr.read (String.ofList "18446744073709551616".toList) = .error (.inl ⟨cause, l⟩) ∧
      cause.message =
        "integer literal '" ++ String.ofList "18446744073709551616".toList ++ "' does not fit in 64 bits" := by
  have hcharacters : "-0x8000000000000000".toList.all Numeral.isCharacter = true := by decide
  have hcharacters' : "18446744073709551616".toList.all Numeral.isCharacter = true := by decide
  have hdigits : "8000000000000000".toList.all (fun c => c ∈ Numeral.digits .hexadecimal) = true := by decide
  have hdigits' : "18446744073709551616".toList.all (fun c => c ∈ Numeral.digits .decimal) = true := by decide
  obtain ⟨htoken, -, hleast⟩ := numberLiteral_exact "" "-0x8000000000000000".toList
    fun c hc => Numeral.isCharacter_iff.1 (List.all_eq_true.1 hcharacters c hc)
  obtain ⟨-, -, hwide⟩ := numberLiteral_exact "" "18446744073709551616".toList
    fun c hc => Numeral.isCharacter_iff.1 (List.all_eq_true.1 hcharacters' c hc)
  have hmatch : "-0x8000000000000000".toList ∈ (Numeral.pattern .hexadecimal).matches' :=
    Numeral.mem_pattern.2 ⟨true, ['0', 'x'], "8000000000000000".toList, rfl, ⟨'x', rfl, rfl⟩, by simp,
      fun c hc => of_decide_eq_true (List.all_eq_true.1 hdigits c hc)⟩
  have hmatch' : "18446744073709551616".toList ∈ (Numeral.pattern .decimal).matches' :=
    Numeral.mem_pattern.2 ⟨false, [], "18446744073709551616".toList, rfl, rfl, by simp,
      fun c hc => of_decide_eq_true (List.all_eq_true.1 hdigits' c hc)⟩
  have hadmits : "8000000000000000".toList.all Radix.hexadecimal.admits = true := by decide
  have hadmits' : "18446744073709551616".toList.all Radix.decimal.admits = true := by decide
  have hwrites : Radix.hexadecimal.Writes "-0x8000000000000000".toList (-2 ^ 63) :=
    ⟨true, ['0', 'x'], "8000000000000000".toList, _, ⟨rfl, ⟨'x', rfl, rfl⟩, by simp, List.all_eq_true.1 hadmits⟩, rfl,
      rfl⟩
  have hwrites' : Radix.decimal.Writes "18446744073709551616".toList (2 ^ 64) :=
    ⟨false, [], "18446744073709551616".toList, _, ⟨rfl, rfl, by simp, List.all_eq_true.1 hadmits'⟩, rfl, rfl⟩
  obtain ⟨v, -, hunique, hread, -⟩ := hleast .hexadecimal hmatch (by simp)
  obtain rfl := hunique _ hwrites
  obtain ⟨u, -, hunique', -, hrefused⟩ := hwide .decimal hmatch' fun _ => by decide
  obtain rfl := hunique' _ hwrites'
  obtain ⟨hliteral, hvalue⟩ := hread (by decide)
  obtain ⟨cause, hfault, -, hmessage⟩ := hrefused (by decide)
  exact ⟨(htoken .hexadecimal _).2 ⟨hmatch, rfl⟩, ⟨_, hliteral, hvalue {} []⟩, cause, _, hfault, hmessage⟩

end AvmAssembler
