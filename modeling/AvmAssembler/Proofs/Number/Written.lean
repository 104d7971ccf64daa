import AvmAssembler.Number.Numeral
import Mathlib.Data.List.TakeWhile

/-! # Written numbers

Integers written in base ten and bytes written in base sixteen are numerals that denote them. An integer that fits
into a word, signed or unsigned, is far below the limit on decimal digits.
-/

namespace AvmAssembler

namespace Text.Digit

theorem isDigit_iff {c : Char} : c.isDigit = true ↔ 0x30 ≤ c.toNat ∧ c.toNat ≤ 0x39 := by
  simp only [Char.isDigit, Bool.and_eq_true, decide_eq_true_eq, ge_iff_le, UInt32.le_iff_toNat_le]
  rfl

theorem value?_of_isDigit {c : Char} (h : c.isDigit = true) : value? c = some (c.toNat - '0'.toNat) := by
  obtain ⟨hlow, hhigh⟩ := isDigit_iff.1 h
  have hzero : (0x30 ≤ c.toNat && c.toNat < 0x30 + 10) = true := by
    simp only [Bool.and_eq_true, decide_eq_true_eq]
    omega
  simp only [value?, zeros, List.find?_cons, hzero, Option.map_some]
  rfl

theorem isDigit_of_asciiDigit {c : Char} (h : c.isDigit = true) : isDigit c = true := by
  simp [isDigit, value?_of_isDigit h]

theorem mapM_value? {cs : List Char} (h : ∀ c ∈ cs, c.isDigit = true) :
    cs.mapM value? = some (cs.map fun c => c.toNat - '0'.toNat) := by
  induction cs with
  | nil => rfl
  | cons c cs ih =>
    rw [List.mapM_cons, value?_of_isDigit (h c (by simp)), ih fun d hd => h d (by simp [hd])]
    rfl

theorem ofValues_ten (cs : List Char) :
    ofValues 10 (cs.map fun c => c.toNat - '0'.toNat) = Nat.ofDigitChars 10 cs 0 := by
  simp only [ofValues, Nat.ofDigitChars_eq_foldl, List.foldl_map, Nat.mul_comm]

end Text.Digit

/-- The sign and the digits of an integer in base ten. -/
theorem toList_toString_int (v : Int) :
    (toString v).toList = (if v < 0 then ['-'] else []) ++ Nat.toDigits 10 v.natAbs := by
  cases v with
  | ofNat n => simp [Int.toString_eq_repr, Int.repr_eq_if]
  | negSucc n => simp [Int.toString_eq_repr, Int.repr_eq_if]

theorem isDigit_of_mem_toDigits {n : Nat} {c : Char} (h : c ∈ Nat.toDigits 10 n) : c.isDigit = true :=
  Nat.isDigit_of_mem_toDigits (by decide) (by decide) h

/-- An integer is written with its sign and digits only. -/
theorem not_mem_toString {c : Char} (hsign : c ≠ '-') (hdigit : c.isDigit = false) (v : Int) :
    c ∉ (toString v).toList := by
  intro hmem
  rw [toList_toString_int] at hmem
  rcases List.mem_append.1 hmem with hmem | hmem
  · split at hmem <;> simp_all
  · rw [isDigit_of_mem_toDigits hmem] at hdigit
    cases hdigit

namespace Numeral

theorem splitSign_append (negative : Bool) {cs : List Char} (h : cs.head? ≠ some '-') :
    splitSign ((if negative then ['-'] else []) ++ cs) = (negative, cs) := by
  cases negative with
  | true => rfl
  | false =>
    simp only [Bool.false_eq_true, if_false, List.nil_append]
    unfold splitSign
    split
    · simp at h
    · rfl

theorem splitSign_digits (negative : Bool) {cs : List Char} (h : ∀ c ∈ cs, c.isDigit = true) :
    splitSign ((if negative then ['-'] else []) ++ cs) = (negative, cs) := by
  refine splitSign_append negative fun hhead => ?_
  have hdigit := h '-' (List.mem_of_mem_head? hhead)
  cases hdigit

theorem length_toDigits_le {v : Int} (hleast : least ≤ v) (hgreatest : v ≤ greatest) :
    (Nat.toDigits 10 v.natAbs).length ≤ digitLimit := by
  have habs : v.natAbs < 10 ^ 20 := by
    simp only [least, greatest] at hleast hgreatest
    omega
  have hlength := (Nat.length_toDigits_le_iff (b := 10) (n := v.natAbs) (k := 20) (by decide)
    (by decide)).2 habs
  exact Nat.le_trans hlength (by decide)

/-- An integer that fits into a word is denoted by its decimal form. -/
theorem integer_toString {v : Int} (hleast : least ≤ v) (hgreatest : v ≤ greatest) :
    integer .decimal (toString v) = .ok v := by
  have hdigits : ∀ c ∈ Nat.toDigits 10 v.natAbs, c.isDigit = true :=
    fun c hc => isDigit_of_mem_toDigits hc
  have hsplit : splitSign (toString v).toList = (decide (v < 0), Nat.toDigits 10 v.natAbs) := by
    rw [toList_toString_int]
    simpa using splitSign_digits (decide (v < 0)) hdigits
  have hrun : (Nat.toDigits 10 v.natAbs).takeWhile (fun c => (Text.Digit.value? c).isSome) =
      Nat.toDigits 10 v.natAbs := by
    refine List.takeWhile_eq_self_iff.2 fun c hc => ?_
    simp [Text.Digit.value?_of_isDigit (hdigits c hc)]
  have hshort : ¬digitLimit < (Nat.toDigits 10 v.natAbs).length :=
    Nat.not_lt.2 (length_toDigits_le hleast hgreatest)
  simp only [integer, hsplit, hrun, if_neg hshort, Text.Digit.mapM_value? hdigits,
    Text.Digit.ofValues_ten, Nat.ofDigitChars_ten_toDigits, signed, decide_eq_true_eq]
  split
  · rw [Int.ofNat_natAbs_of_nonpos (by omega), Int.neg_neg]
  · rw [Int.natAbs_of_nonneg (by omega)]

end Numeral

/-! ## Bytes in base sixteen -/

namespace Text.Digit

theorem toUpper_digitChar : ∀ d < 16, (Nat.digitChar d).toUpper = upperHex d := by
  decide

theorem hexValue?_upperHex : ∀ d < 16, hexValue? (upperHex d) = some d := by
  decide

/-- A byte is written with two digits of base sixteen. -/
theorem upperHexPair_eq {n : Nat} (h : n < 256) :
    upperHexPair n = String.ofList [upperHex (n / 16), upperHex (n % 16)] := by
  have hhigh : n / 16 < 16 := by omega
  have hlow : n % 16 < 16 := by omega
  unfold upperHexPair
  split
  · rename_i hsmall
    rw [Nat.div_eq_of_lt hsmall, Nat.mod_eq_of_lt hsmall]
    rfl
  · rename_i hlarge
    rw [Nat.toDigits_of_base_le (by decide) (by omega), Nat.toDigits_of_lt_base hhigh,
      List.map_append, List.map_cons, List.map_cons, toUpper_digitChar _ hhigh, toUpper_digitChar _ hlow]
    rfl

end Text.Digit

/-- A byte is denoted by its two digits of base sixteen after the announcement of the base. -/
theorem Numeral.integer_upperHexPair {n : Nat} (h : n < 256) :
    integer .hexadecimal ("0x" ++ Text.Digit.upperHexPair n) = .ok n := by
  have hhigh : n / 16 < 16 := by omega
  have hlow : n % 16 < 16 := by omega
  simp only [integer, Text.Digit.upperHexPair_eq h, String.toList_append, String.toList_ofList]
  simp [splitSign, Text.Digit.hexValue?_upperHex _ hhigh, Text.Digit.hexValue?_upperHex _ hlow,
    Text.Digit.ofValues, signed, Radix.base]
  omega

end AvmAssembler
