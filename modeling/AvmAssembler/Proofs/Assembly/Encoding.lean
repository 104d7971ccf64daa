import AvmAssembler.Assembly
import AvmAssembler.Proofs.Image.Codec

/-! # Words stored in elements

An element holds the low bytes of a word. Nothing is lost if the word comes back when these are extended to its width
again, with zeros or by their sign; otherwise there is a warning, which names the word as it was meant and the number that
is stored for it.
-/

namespace AvmAssembler

/-! ## Cutting and extending words -/

namespace Word

/-- Cut to fewer bits and extended with zeros, a word comes back just if it is below the power of two of these bits. -/
theorem setWidth_setWidth_eq_iff (k : Nat) (w : BitVec width) :
    (w.setWidth k).setWidth width = w ↔ w.toNat < 2 ^ k := by
  have hlt : w.toNat % 2 ^ k < 2 ^ width := Nat.lt_of_le_of_lt (Nat.mod_le _ _) w.isLt
  rw [← BitVec.toNat_inj, BitVec.toNat_setWidth, BitVec.toNat_setWidth, Nat.mod_eq_of_lt hlt]
  exact Nat.mod_eq_iff_lt (Nat.ne_of_gt (Nat.two_pow_pos k))

/-- Cut to fewer bits and extended by its sign, a word comes back just if it is in the signed range of these bits. -/
theorem signExtend_setWidth_eq_iff {k : Nat} (hpos : 0 < k) (hk : k ≤ width) (w : BitVec width) :
    (w.setWidth k).signExtend width = w ↔ -2 ^ (k - 1) ≤ w.toInt ∧ w.toInt < 2 ^ (k - 1) := by
  have hcut : (w.setWidth k).toInt = w.toInt.bmod (2 ^ k) := by
    rw [← BitVec.signExtend_eq_setWidth_of_le w hk, BitVec.toInt_signExtend_eq_toInt_bmod_of_le w hk]
  rw [← BitVec.toInt_inj, BitVec.toInt_signExtend_of_le hk, hcut]
  obtain ⟨j, rfl⟩ : ∃ j, k = j + 1 := ⟨k - 1, by omega⟩
  rw [Nat.add_sub_cancel]
  constructor
  · intro h
    have hlow := Int.le_bmod (x := w.toInt) (Nat.two_pow_pos (j + 1))
    have hhigh := Int.bmod_lt (x := w.toInt) (Nat.two_pow_pos (j + 1))
    rw [h] at hlow hhigh
    push_cast [Nat.pow_succ, Int.pow_succ] at hlow hhigh
    omega
  · rintro ⟨hlow, hhigh⟩
    apply Int.bmod_eq_of_le_mul_two
    · push_cast [Int.pow_succ]
      omega
    · push_cast [Int.pow_succ]
      omega

theorem toSigned_eq_toInt {word : Nat} (h : word < modulus) : toSigned word = (BitVec.ofNat width word).toInt := by
  have hsmall : word < 2 ^ 64 := h
  have hword : (BitVec.ofNat width word).toNat = word := by
    rw [BitVec.toNat_ofNat]
    exact Nat.mod_eq_of_lt hsmall
  rw [BitVec.toInt_eq_toNat_cond, hword, toSigned, isNegative]
  by_cases hnegative : Nat.pow 2 (width - 1) ≤ word
  · have hge : ¬2 * word < 2 ^ width := by
      change 2 ^ 63 ≤ word at hnegative
      change ¬2 * word < 2 ^ 64
      omega
    rw [if_neg hge, if_pos (decide_eq_true hnegative)]
    rfl
  · have hlt : 2 * word < 2 ^ width := by
      change ¬2 ^ 63 ≤ word at hnegative
      change 2 * word < 2 ^ 64
      omega
    rw [if_pos hlt, if_neg (by simpa using hnegative)]

end Word

namespace Assembly

/-! ## Elements -/

/-- A number of some bits, extended to the width of a word with zeros or by its sign, is the word. -/
def Retains (bits stored word : Nat) : Prop :=
  (BitVec.ofNat bits stored).setWidth Word.width = BitVec.ofNat Word.width word ∨
    (BitVec.ofNat bits stored).signExtend Word.width = BitVec.ofNat Word.width word

instance (bits stored word : Nat) : Decidable (Retains bits stored word) :=
  inferInstanceAs (Decidable (_ ∨ _))

/-- What is left of a word retains it just if the word is below the power of two of the bits or a negative number of so
many bits. -/
theorem retains_mod_iff {bits word : Nat} (hpos : 0 < bits) (hbits : bits ≤ Word.width) (h : word < Word.modulus) :
    Retains bits (word % 2 ^ bits) word ↔ fits bits word = true := by
  have hword : (BitVec.ofNat Word.width word).toNat = word := by
    rw [BitVec.toNat_ofNat]
    exact Nat.mod_eq_of_lt h
  have hcut : BitVec.ofNat bits (word % 2 ^ bits) = (BitVec.ofNat Word.width word).setWidth bits := by
    apply BitVec.eq_of_toNat_eq
    rw [BitVec.toNat_ofNat, BitVec.toNat_setWidth, hword, Nat.mod_mod]
  rw [Retains, hcut, Word.setWidth_setWidth_eq_iff, Word.signExtend_setWidth_eq_iff hpos hbits,
    ← Word.toSigned_eq_toInt h, hword]
  simp only [fits, Nat.pow_eq, Bool.or_eq_true, Bool.and_eq_true, decide_eq_true_eq, Int.natCast_pow, Int.cast_ofNat_Int]
  by_cases hnegative : Word.toSigned word < 0
  · have hhalf : (0 : Int) < 2 ^ (bits - 1) := Int.pow_pos (by decide)
    omega
  -- Read with its sign, a word that is not negative is itself, and what is in the signed range is in the other one too.
  · have hsame : Word.toSigned word = word := by
      cases htop : Word.isNegative word with
      | true =>
        rw [Word.toSigned, if_pos htop] at hnegative
        omega
      | false => rw [Word.toSigned, if_neg (by simp [htop])]
    have hhalf : (2 : Int) ^ (bits - 1) ≤ ((2 ^ bits : Nat) : Int) := by
      have hle : 2 ^ (bits - 1) ≤ 2 ^ bits := Nat.pow_le_pow_right (by decide) (by omega)
      exact_mod_cast hle
    omega

def warn (a : Assembly) (message : String) (l : Option Location) : Assembly :=
  { a with
    journal := { a.journal with diagnostics := a.journal.diagnostics.warn ⟨.warning, message, l⟩ } }

/-- A word is stored in as many bytes as its element has, which are the word up to the powers of two that they have no
place for. There is a warning just if the word does not come back from them, with the word read by its sign and the number
that is stored; an element of eight bytes always gives it back. -/
theorem element_exact {word : Nat} (h : word < Word.modulus) (type : ElementType) (l : Option Location)
    (a : Assembly) :
    ∃ bytes : List UInt8, bytes.length = type.size ∧ ofBigEndian bytes = word % 2 ^ (8 * type.size) ∧
      (Retains (8 * type.size) (ofBigEndian bytes) word → element word type l a = .ok bytes a) ∧
      (¬Retains (8 * type.size) (ofBigEndian bytes) word →
        element word type l a = .ok bytes (a.warn
          s!"value {(BitVec.ofNat Word.width word).toInt} does not fit in {type.name}, truncated to {ofBigEndian bytes}"
          l)) ∧
      (type.size = 8 → Retains (8 * type.size) (ofBigEndian bytes) word) := by
  have hwidth : 8 * type.size ≤ Word.width := by
    have hsize := type.size_le
    change 8 * type.size ≤ 64
    omega
  have hpos : 0 < 8 * type.size := by
    have hsize := type.size_pos
    omega
  have hstored : ofBigEndian (bigEndian type.size word) = word % 2 ^ (8 * type.size) := by
    rw [ofBigEndian_bigEndian, Nat.pow_mul]
  have hretains := retains_mod_iff hpos hwidth h
  have hwide : type.size = 8 → Retains (8 * type.size) (word % 2 ^ (8 * type.size)) word := by
    intro hsize
    have hlt : word < 2 ^ (8 * type.size) := by
      rw [hsize]
      exact h
    rw [hretains, fits, Nat.pow_eq, decide_eq_true hlt, Bool.true_or]
  refine ⟨bigEndian type.size word, bigEndian_length _ _, hstored, ?_, ?_, ?_⟩
  · intro hback
    rw [hstored, hretains] at hback
    simp only [element, hback, Bool.not_true, Bool.and_false, Bool.false_eq_true, if_false]
    rfl
  · intro hlost
    have hnarrow : 8 * type.size < Word.width := by
      by_contra hnot
      have hsize : type.size = 8 := by
        change ¬8 * type.size < 64 at hnot
        have hle := type.size_le
        omega
      exact hlost (hstored ▸ hwide hsize)
    rw [hstored, hretains] at hlost
    rw [hstored, ← Word.toSigned_eq_toInt h]
    simp only [element, hnarrow, hlost, decide_true, Bool.not_false, Bool.and_true, if_true]
    rfl
  · rw [hstored]
    exact hwide

theorem element_exact_byte :
    300 < Word.modulus ∧ ∃ bytes : List UInt8, bytes.length = 1 ∧ ofBigEndian bytes = 44 ∧
      element 300 .byte none {} =
        .ok bytes (warn {} "value 300 does not fit in byte, truncated to 44" none) := by
  have hword : 300 < Word.modulus := by decide
  obtain ⟨bytes, hlength, hvalue, -, hlost, -⟩ := element_exact hword .byte none {}
  have hstored : ofBigEndian bytes = 44 := hvalue
  have hnot : ¬Retains (8 * ElementType.byte.size) 44 300 := by decide
  have helement := hlost (hstored ▸ hnot)
  rw [hstored] at helement
  exact ⟨hword, bytes, hlength, hstored, helement⟩

/-- With its sign, -128 has its place in a byte. -/
example : Retains 8 128 (Word.ofInt (-128)) := by decide

end Assembly

end AvmAssembler
