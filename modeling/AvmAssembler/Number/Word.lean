/-! # Machine words

A word is a natural number below `2 ^ 64`. Integers are stored in two's complement, and words and
shorter elements are laid out with the most significant byte first.
-/

namespace AvmAssembler

namespace Word

def width : Nat := 64

/-- The number of words. -/
def modulus : Nat := Nat.pow 2 width

/-- The word that stores an integer: its residue modulo `2 ^ 64`. -/
def ofInt (v : Int) : Nat :=
  (v % (modulus : Int)).toNat

/-- A word is negative in two's complement when its top bit is set. -/
def isNegative (w : Nat) : Bool :=
  Nat.pow 2 (width - 1) ≤ w

def toSigned (w : Nat) : Int :=
  if isNegative w then (w : Int) - modulus else w

/-- The bitwise conjunction of integers in two's complement of any width. -/
def conj : Int → Int → Int
  | .ofNat m, .ofNat n => .ofNat (m &&& n)
  | .ofNat m, .negSucc n => .ofNat (m - (m &&& n))
  | .negSucc m, .ofNat n => .ofNat (n - (n &&& m))
  | .negSucc m, .negSucc n => .negSucc (m ||| n)

/-- The bitwise disjunction of integers in two's complement of any width. -/
def disj : Int → Int → Int
  | .ofNat m, .ofNat n => .ofNat (m ||| n)
  | .ofNat m, .negSucc n => .negSucc (n - (n &&& m))
  | .negSucc m, .ofNat n => .negSucc (m - (m &&& n))
  | .negSucc m, .negSucc n => .negSucc (m &&& n)

theorem ofInt_lt (v : Int) : ofInt v < modulus := by
  have hm : (0 : Int) < (modulus : Int) := by decide
  have h := Int.emod_lt_of_pos v hm
  have h0 := Int.emod_nonneg v (Int.ne_of_gt hm)
  unfold ofInt
  omega

@[simp] theorem ofInt_natCast (n : Nat) : ofInt (n : Int) = n % modulus := by
  unfold ofInt
  rw [← Int.natCast_emod]
  exact Int.toNat_natCast _

@[simp] theorem conj_natCast (m n : Nat) : conj m n = (m &&& n : Nat) := rfl

@[simp] theorem disj_natCast (m n : Nat) : disj m n = (m ||| n : Nat) := rfl

end Word

/-- The low `n` bytes of a number, most significant first. -/
def bigEndian : (n : Nat) → (value : Nat) → List UInt8
  | 0, _ => []
  | n + 1, value => UInt8.ofNat (value / Nat.pow 256 n) :: bigEndian n value

@[simp] theorem bigEndian_length (n value : Nat) : (bigEndian n value).length = n := by
  induction n with
  | zero => rfl
  | succ n ih => simp [bigEndian, ih]

/-- The number written by a list of bytes, most significant first. -/
def ofBigEndian (bytes : List UInt8) : Nat :=
  bytes.foldl (fun n b => n * 256 + b.toNat) 0

end AvmAssembler
