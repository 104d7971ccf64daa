import AvmAssembler.Proofs.Assembly.Inlining

/-! # Arithmetic of words

Expressions of integers, names and sizes denote bit vectors: every leaf is reduced to a word, and an operator is applied
from the left to words that its operands denote. Where an expression denotes nothing, some check on the way of its
evaluation fails: that of the number of operands on entering a form, that of a divisor right behind it, that of a name.
The fault is that of the first check which fails. With sums, differences and products only, it does not matter whether
the leaves are reduced or the result.
-/

namespace AvmAssembler

/-! ## Denotations -/

namespace Operator

/-- An operator on bit vectors: arithmetic wraps around, division is unsigned, shifts are logical. -/
def onBits? (o : Operator) (x y : BitVec 64) : Option (BitVec 64) :=
  match o with
  | add => some (x + y)
  | sub => some (x - y)
  | mul => some (x * y)
  | div => if y = 0 then none else some (x / y)
  | mod => if y = 0 then none else some (x % y)
  | pow => none
  | conj => some (x &&& y)
  | disj => some (x ||| y)
  | shiftRight => some (x >>> y)
  | shiftLeft => some (x <<< y)

def onIntegers? (o : Operator) (x y : Int) : Option Int :=
  match o with
  | add => some (x + y)
  | sub => some (x - y)
  | mul => some (x * y)
  | _ => none

def divides : Operator → Bool
  | div | mod => true
  | _ => false

/-- What is wrong with a divisor of zero. -/
def zeroDivisor : Operator → Cause
  | mod => .moduloByZero
  | _ => .divisionByZero

end Operator

def SizeofTarget.size? (table : SymbolTable) : SizeofTarget → Option Int
  | .type _ t => some t.size
  | .name _ n =>
    match table.get? n with
    | some ⟨_, .region _ size⟩ => some size
    | _ => none

namespace Expr

section

variable {α : Type} (leaf : Int → α) (operation : Operator → α → α → Option α) (table : SymbolTable)

def fold? (operation : α → α → Option α) : List α → Option α
  | [] => none
  | x :: xs => xs.foldlM operation x

mutual

/-- What an expression denotes where numbers are leaves and operators are operations. -/
def denotation? : Expr → Option α
  | integer _ v => some (leaf v)
  | name _ n => (table.get? n).map fun s => leaf s.meaning.value
  | sizeof _ target => (target.size? table).map leaf
  | apply _ (.known o) operands =>
    if operands.length < 2 then none else (denotations? operands).bind (fold? (operation o))
  | _ => none

def denotations? : List Expr → Option (List α)
  | [] => some []
  | e :: es => (denotation? e).bind fun x => (denotations? es).map (x :: ·)

end

end

/-- The bit vector that an expression denotes. -/
def bits? (table : SymbolTable) (e : Expr) : Option (BitVec 64) :=
  e.denotation? (BitVec.ofInt 64) Operator.onBits? table

def integerValue? (table : SymbolTable) (e : Expr) : Option Int :=
  e.denotation? id Operator.onIntegers? table

/-- An expression of integers, names, sizes and some of the operators. -/
inductive BuiltFrom (allowed : Operator → Prop) : Expr → Prop
  | integer (l v) : BuiltFrom allowed (.integer l v)
  | name (l n) : BuiltFrom allowed (.name l n)
  | sizeof (l target) : BuiltFrom allowed (.sizeof l target)
  | apply {l o operands} : allowed o → (∀ e ∈ operands, BuiltFrom allowed e) →
      BuiltFrom allowed (.apply l (.known o) operands)

/-! ## Checks -/

/-- What is checked on the way of an evaluation. -/
inductive Check where
  /-- A form of an operator has at least two operands. -/
  | arity (location : Option Location) (operator : Operator) (count : Nat)
  /-- An operand that an operator divides by is not zero. -/
  | divisor (operator : Operator) (operand : Expr)
  /-- A name is that of a symbol. -/
  | name (location : Option Location) (name : String)
  /-- A name is that of a region, whose size is asked for. -/
  | region (location : Option Location) (name : String)

namespace Check

def fails (table : SymbolTable) : Check → Bool
  | arity _ _ count => count < 2
  | divisor _ operand => operand.bits? table = some 0
  | name _ n => (table.get? n).isNone
  | region l n => ((SizeofTarget.name l n).size? table).isNone

def location : Check → Option Location
  | arity l _ _ | name l _ | region l _ => l
  | divisor _ operand => operand.location

def cause (table : SymbolTable) (pending : Pending) : Check → Cause
  | arity _ o count => .fewOperands (.known o) count
  | divisor o _ => o.zeroDivisor
  | name l n => (undefined table pending l n).cause
  | region l n =>
    match table.get? n with
    | some s => .sizeofNonVariable s.meaning.kind n s.location
    | none => (undefined table pending l n).cause

def fault (table : SymbolTable) (pending : Pending) (c : Check) : Fault :=
  ⟨c.cause table pending, c.location⟩

end Check

mutual

/-- The checks of an evaluation in their order: on entering a form the number of its operands, and then what is checked
on the way of its operands. -/
def checks : Expr → List Check
  | name l n => [.name l n]
  | sizeof _ (.name l n) => [.region l n]
  | apply l (.known o) operands =>
    .arity l o operands.length ::
      match operands with
      | [] => []
      | first :: rest => checks first ++ operandChecks o rest
  | _ => []

/-- The checks of operands that are applied one after another, a divisor right behind it. -/
def operandChecks (o : Operator) : List Expr → List Check
  | [] => []
  | e :: es => checks e ++ ((if o.divides then [.divisor o e] else []) ++ operandChecks o es)

end

end Expr

/-! ## Operators on words -/

theorem Word.ofInt_eq_toNat (v : Int) : Word.ofInt v = (BitVec.ofInt 64 v).toNat := (BitVec.toNat_ofInt v).symm

theorem Word.bits_toNat (x : BitVec 64) : BitVec.ofInt 64 x.toNat = x := by
  rw [BitVec.ofInt_natCast, BitVec.ofNat_toNat, BitVec.setWidth_eq]

theorem Word.bits_sub (x y : Int) : BitVec.ofInt 64 (x - y) = BitVec.ofInt 64 x - BitVec.ofInt 64 y := by
  rw [Int.sub_eq_add_neg, BitVec.ofInt_add, BitVec.ofInt_neg, BitVec.sub_eq_add_neg]

namespace Operator

variable {o : Operator} {x y w : BitVec 64}

theorem shift_toNat (amount : BitVec 64) (f : Nat → Int) :
    shift amount.toNat f = .ok (if 64 ≤ amount.toNat then 0 else f (2 ^ amount.toNat)) := by
  have hnonneg : ¬((amount.toNat : Int) < 0) := Int.not_lt.2 (Int.natCast_nonneg _)
  have hwide : ((Word.width : Nat) : Int) ≤ amount.toNat ↔ 64 ≤ amount.toNat := Int.ofNat_le
  rw [shift, if_neg hnonneg]
  by_cases h : 64 ≤ amount.toNat
  · rw [if_pos (hwide.2 h), if_pos h]
  · rw [if_neg (fun hw => h (hwide.1 hw)), if_neg h]
    rfl

/-- On words, an operator does what it does on bit vectors. -/
theorem apply_of_onBits? (h : o.onBits? x y = some w) : o.apply x.toNat y.toNat = .ok (w.toNat : Int) := by
  cases o with
  | add =>
    cases h
    rw [apply, Word.ofInt_eq_toNat, BitVec.ofInt_add, Word.bits_toNat, Word.bits_toNat]
  | sub =>
    cases h
    rw [apply, Word.ofInt_eq_toNat, Word.bits_sub, Word.bits_toNat, Word.bits_toNat]
  | mul =>
    cases h
    rw [apply, Word.ofInt_eq_toNat, BitVec.ofInt_mul, Word.bits_toNat, Word.bits_toNat]
  | div =>
    simp only [onBits?, Option.ite_none_left_eq_some, Option.some.injEq] at h
    obtain ⟨hy, rfl⟩ := h
    have hy' : ¬(y.toNat : Int) = 0 := by simpa [← BitVec.toNat_inj] using hy
    rw [apply, if_neg hy', Int.fdiv_eq_ediv_of_nonneg _ (Int.natCast_nonneg _), BitVec.toNat_udiv]
    rfl
  | mod =>
    simp only [onBits?, Option.ite_none_left_eq_some, Option.some.injEq] at h
    obtain ⟨hy, rfl⟩ := h
    have hy' : ¬(y.toNat : Int) = 0 := by simpa [← BitVec.toNat_inj] using hy
    rw [apply, if_neg hy', Int.fmod_eq_emod_of_nonneg _ (Int.natCast_nonneg _), BitVec.toNat_umod]
    rfl
  | pow => cases h
  | conj =>
    cases h
    rw [apply, Word.conj_natCast, BitVec.toNat_and]
  | disj =>
    cases h
    rw [apply, Word.disj_natCast, BitVec.toNat_or]
  | shiftRight =>
    cases h
    rw [apply, shift_toNat, BitVec.ushiftRight_eq', BitVec.toNat_ushiftRight, Nat.shiftRight_eq_div_pow]
    split
    · rename_i hwide
      have hpow : 2 ^ 64 ≤ 2 ^ y.toNat := Nat.pow_le_pow_right (by decide) hwide
      rw [Nat.div_eq_of_lt (Nat.lt_of_lt_of_le x.isLt hpow)]
      rfl
    · rw [Int.fdiv_eq_ediv_of_nonneg _ (Int.natCast_nonneg _)]
      rfl
  | shiftLeft =>
    cases h
    rw [apply, shift_toNat, BitVec.shiftLeft_eq', BitVec.toNat_shiftLeft, Nat.shiftLeft_eq]
    split
    · rename_i hwide
      have hdvd : 2 ^ 64 ∣ x.toNat * 2 ^ y.toNat := Dvd.dvd.mul_left (Nat.pow_dvd_pow 2 hwide) _
      rw [Nat.mod_eq_zero_of_dvd hdvd]
      rfl
    · rw [← Int.natCast_mul, Word.ofInt_natCast]
      rfl

/-- Nothing but a divisor of zero keeps an operator from being applied to words. -/
theorem onBits?_eq_none (ho : o ≠ .pow) : o.onBits? x y = none ↔ o.divides = true ∧ y = 0 := by
  cases o <;> simp_all [onBits?, divides]

theorem apply_zero (h : o.divides = true) (x : Int) : o.apply x 0 = .error o.zeroDivisor := by
  cases o <;> first | rfl | cases h

end Operator

/-! ## Evaluations and denotations -/

namespace Expr

variable {table : SymbolTable} {pending : Pending}

/-- An evaluation gives the word that is denoted, and no check fails; or nothing is denoted, and the fault is that of
the first check that fails. -/
def Agrees (table : SymbolTable) (pending : Pending) (outcome : Except Fault Int) (denoted : Option (BitVec 64))
    (cs : List Check) : Prop :=
  (∃ w, outcome = .ok (w.toNat : Int) ∧ denoted = some w ∧ cs.find? (Check.fails table) = none) ∨
    ∃ c, outcome = .error (c.fault table pending) ∧ denoted = none ∧ cs.find? (Check.fails table) = some c

theorem undefined_eq (l : Option Location) (n : String) :
    undefined table pending l n = ⟨(undefined table pending l n).cause, l⟩ := by
  unfold undefined
  split <;> rfl

theorem nameValue_agrees (l : Option Location) (n : String) :
    Agrees table pending (nameValue table pending l n) ((Expr.name l n).bits? table) (Expr.name l n).checks := by
  unfold nameValue
  cases hget : table.get? n with
  | some s =>
    refine .inl ⟨.ofInt 64 s.meaning.value, ?_, ?_, ?_⟩
    · exact congrArg (fun w : Nat => Except.ok (w : Int)) (Word.ofInt_eq_toNat _)
    · simp [bits?, denotation?, hget]
    · simp [checks, Check.fails, hget]
  | none =>
    refine .inr ⟨.name l n, ?_, ?_, ?_⟩
    · exact congrArg Except.error (undefined_eq l n)
    · simp [bits?, denotation?, hget]
    · simp [checks, Check.fails, hget]

theorem sizeofValue_agrees (hsizes : table.HasWordSizes) (l : Option Location) (target : SizeofTarget) :
    Agrees table pending (sizeofValue table pending target) ((Expr.sizeof l target).bits? table)
      (Expr.sizeof l target).checks := by
  cases target with
  | type place t =>
    refine .inl ⟨.ofInt 64 t.size, ?_, rfl, rfl⟩
    cases t <;> rfl
  | name place n =>
    cases hget : table.get? n with
    | none =>
      refine .inr ⟨.region place n, ?_, ?_, ?_⟩
      · simp only [sizeofValue, Check.fault, Check.cause, hget]
        exact congrArg Except.error (undefined_eq place n)
      · simp [bits?, denotation?, SizeofTarget.size?, hget]
      · simp [checks, Check.fails, SizeofTarget.size?, hget]
    | some s =>
      obtain ⟨first, meaning⟩ := s
      cases meaning with
      | region address size =>
        obtain ⟨hnonneg, hlt⟩ := hsizes n first address size (SymbolTable.mem_entries_of_get? hget)
        refine .inl ⟨.ofInt 64 size, ?_, ?_, ?_⟩
        · have hlt' : size < (2 ^ 64 : Nat) := hlt
          simp only [sizeofValue, hget]
          rw [BitVec.toNat_ofInt, Int.emod_eq_of_lt hnonneg hlt', Int.toNat_of_nonneg hnonneg]
        · simp [bits?, denotation?, SizeofTarget.size?, hget]
        · simp [checks, Check.fails, SizeofTarget.size?, hget]
      | label | constant =>
        refine .inr ⟨.region place n, ?_, ?_, ?_⟩
        · simp only [sizeofValue, Check.fault, Check.cause, Check.location, hget]
        · simp [bits?, denotation?, SizeofTarget.size?, hget]
        · simp [checks, Check.fails, SizeofTarget.size?, hget]

theorem Agrees.of_arity {l : Option Location} {o : Operator} {operands : List Expr} (h : operands.length < 2) :
    Agrees table pending (value table pending (.apply l (.known o) operands))
      ((Expr.apply l (.known o) operands).bits? table) (Expr.apply l (.known o) operands).checks := by
  refine .inr ⟨.arity l o operands.length, ?_, ?_, ?_⟩
  all_goals
    match operands with
    | [] | [_] => rfl

/-- Evaluations in sequence agree if each of them does. -/
theorem Agrees.bind {outcome : Except Fault Int} {next : Int → Except Fault Int} {denoted : Option (BitVec 64)}
    {onward : BitVec 64 → Option (BitVec 64)} {cs more : List Check} (h : Agrees table pending outcome denoted cs)
    (hnext : ∀ w, denoted = some w → Agrees table pending (next w.toNat) (onward w) more) :
    Agrees table pending (outcome >>= next) (denoted.bind onward) (cs ++ more) := by
  rcases h with ⟨w, rfl, rfl, hcs⟩ | ⟨c, rfl, rfl, hcs⟩
  · have hfind : (cs ++ more).find? (Check.fails table) = more.find? (Check.fails table) := by
      rw [List.find?_append, hcs, Option.none_or]
    unfold Agrees
    rw [hfind]
    exact hnext w rfl
  · refine .inr ⟨c, rfl, rfl, ?_⟩
    rw [List.find?_append, hcs, Option.some_or]

/-- An operator agrees on words with its operation on bit vectors and the check of its divisor. -/
theorem Agrees.step {o : Operator} (ho : o ≠ .pow) {x y : BitVec 64} {e : Expr} (he : e.bits? table = some y)
    {next : Int → Except Fault Int} {onward : BitVec 64 → Option (BitVec 64)} {more : List Check}
    (hnext : ∀ r, Agrees table pending (next r.toNat) (onward r) more) :
    Agrees table pending
      (match (OperatorSign.known o).apply x.toNat y.toNat with
        | .ok r => next r
        | .error cause => .error ⟨cause, e.location⟩)
      ((o.onBits? x y).bind onward) ((if o.divides then [.divisor o e] else []) ++ more) := by
  cases hbits : o.onBits? x y with
  | some r =>
    have happly : (OperatorSign.known o).apply x.toNat y.toNat = .ok (r.toNat : Int) := Operator.apply_of_onBits? hbits
    have hpasses : (if o.divides then [Check.divisor o e] else []).find? (Check.fails table) = none := by
      split
      · rename_i hdivides
        have hy : y ≠ 0 := fun hy => by simp [(Operator.onBits?_eq_none ho).2 ⟨hdivides, hy⟩] at hbits
        simpa [Check.fails, he] using hy
      · rfl
    simp only [happly, Option.bind_some]
    unfold Agrees
    rw [List.find?_append, hpasses, Option.none_or]
    exact hnext r
  | none =>
    obtain ⟨hdivides, rfl⟩ := (Operator.onBits?_eq_none ho).1 hbits
    have happly : (OperatorSign.known o).apply x.toNat (0 : BitVec 64).toNat = .error o.zeroDivisor :=
      Operator.apply_zero hdivides _
    refine .inr ⟨.divisor o e, ?_, rfl, ?_⟩
    · simp only [happly, Check.fault, Check.cause, Check.location]
    · simp [hdivides, Check.fails, he]

theorem bits?_apply (l : Option Location) (o : Operator) (first second : Expr) (rest : List Expr) :
    (Expr.apply l (.known o) (first :: second :: rest)).bits? table =
      (first.bits? table).bind fun x =>
        (denotations? (BitVec.ofInt 64) Operator.onBits? table (second :: rest)).bind fun ys =>
          ys.foldlM o.onBits? x := by
  have hlength : ¬(first :: second :: rest).length < 2 := by simp
  rw [bits?, denotation?, if_neg hlength, denotations?, Option.bind_assoc]
  simp only [Option.bind_map]
  rfl

mutual

/-- Without powers, where the sizes of regions are words, evaluation agrees with the denotation and the checks. -/
theorem value_agrees (hsizes : table.HasWordSizes) : ∀ {e : Expr}, e.BuiltFrom (· ≠ .pow) →
    Agrees table pending (value table pending e) (e.bits? table) e.checks
  | .integer _ v, _ =>
    .inl ⟨.ofInt 64 v, congrArg (fun w : Nat => Except.ok (w : Int)) (Word.ofInt_eq_toNat v), rfl, rfl⟩
  | .name l n, _ => nameValue_agrees l n
  | .sizeof l target, _ => sizeofValue_agrees hsizes l target
  | .apply l (.known o) [], _ | .apply l (.known o) [_], _ => .of_arity (by simp)
  | .apply l (.known o) (first :: second :: rest), .apply ho hall => by
    have hfirst := value_agrees hsizes (hall first (by simp))
    have hoperands : ∀ e ∈ second :: rest, e.BuiltFrom (· ≠ .pow) := fun e he => hall e (List.mem_cons_of_mem first he)
    have hrest : Agrees table pending
        (value table pending first >>= fun x => applyAll table pending (.known o) x (second :: rest))
        ((first.bits? table).bind fun x =>
          (denotations? (BitVec.ofInt 64) Operator.onBits? table (second :: rest)).bind fun ys =>
            ys.foldlM o.onBits? x)
        (first.checks ++ operandChecks o (second :: rest)) :=
      hfirst.bind fun w _ => applyAll_agrees hsizes ho hoperands w
    -- The check of the number of operands passes, so the first one that fails is found behind it.
    have hchecks : (Expr.apply l (.known o) (first :: second :: rest)).checks.find? (Check.fails table) =
        (first.checks ++ operandChecks o (second :: rest)).find? (Check.fails table) := by
      rw [checks, List.find?_cons_of_neg (by simp [Check.fails])]
    rw [bits?_apply]
    unfold Agrees
    rw [hchecks]
    exact hrest

/-- Operands are applied from the left to a word. -/
theorem applyAll_agrees (hsizes : table.HasWordSizes) {o : Operator} (ho : o ≠ .pow) : ∀ {es : List Expr}
    (_ : ∀ e ∈ es, e.BuiltFrom (· ≠ .pow)) (x : BitVec 64),
    Agrees table pending (applyAll table pending (.known o) x.toNat es)
      ((denotations? (BitVec.ofInt 64) Operator.onBits? table es).bind fun ys => ys.foldlM o.onBits? x)
      (operandChecks o es)
  | [], _, x => .inl ⟨x, rfl, rfl, rfl⟩
  | e :: es, h, x => by
    have he := value_agrees hsizes (h e (by simp))
    -- An operand is applied before the next one is evaluated, and nothing is denoted if one of them denotes nothing.
    have hdenoted : ((denotations? (BitVec.ofInt 64) Operator.onBits? table (e :: es)).bind
          fun ys => ys.foldlM o.onBits? x) =
        (e.bits? table).bind fun y => (o.onBits? x y).bind fun r =>
          (denotations? (BitVec.ofInt 64) Operator.onBits? table es).bind fun ys => ys.foldlM o.onBits? r := by
      rw [denotations?, Option.bind_assoc]
      refine Option.bind_congr fun y _ => ?_
      rw [Option.bind_map]
      exact Option.bind_comm _ _
    rw [hdenoted, operandChecks]
    have hes : ∀ e ∈ es, e.BuiltFrom (· ≠ .pow) := fun f hf => h f (List.mem_cons_of_mem e hf)
    exact he.bind fun y hy => Agrees.step ho hy fun r => applyAll_agrees hsizes ho hes r

end

/-! ## Integers and bit vectors -/

section

variable {α β : Type} {f : α → β} {leaf : Int → α} {leaf' : Int → β} {operation : Operator → α → α → Option α}
  {operation' : Operator → β → β → Option β} {allowed : Operator → Prop}

theorem foldlM_map {o : Operator} (h : ∀ x y, (operation o x y).map f = operation' o (f x) (f y)) (xs : List α)
    (x : α) :
    (xs.foldlM (operation o) x).map f = (xs.map f).foldlM (operation' o) (f x) := by
  induction xs generalizing x with
  | nil => rfl
  | cons y ys ih =>
    rw [List.map_cons, List.foldlM_cons, List.foldlM_cons, ← h]
    cases operation o x y with
    | none => rfl
    | some r => exact ih r

mutual

/-- A map that respects leaves and operations respects what is denoted. -/
theorem denotation?_map (hleaf : ∀ v, f (leaf v) = leaf' v)
    (h : ∀ o, allowed o → ∀ x y, (operation o x y).map f = operation' o (f x) (f y)) :
    ∀ {e : Expr}, e.BuiltFrom allowed →
      (e.denotation? leaf operation table).map f = e.denotation? leaf' operation' table
  | .integer _ v, _ => congrArg some (hleaf v)
  | .name _ n, _ => by simp [denotation?, Function.comp_def, hleaf]
  | .sizeof _ target, _ => by simp [denotation?, Function.comp_def, hleaf]
  | .apply _ (.known o) operands, .apply ho hall => by
    rw [denotation?, denotation?, ← denotations?_map hleaf h hall]
    split
    · rfl
    · cases denotations? leaf operation table operands with
      | none => rfl
      | some xs =>
        cases xs with
        | nil => rfl
        | cons x xs => exact foldlM_map (h o ho) xs x

theorem denotations?_map (hleaf : ∀ v, f (leaf v) = leaf' v)
    (h : ∀ o, allowed o → ∀ x y, (operation o x y).map f = operation' o (f x) (f y)) :
    ∀ {es : List Expr}, (∀ e ∈ es, e.BuiltFrom allowed) →
      (denotations? leaf operation table es).map (List.map f) = denotations? leaf' operation' table es
  | [], _ => rfl
  | e :: es, hall => by
    rw [denotations?, denotations?, ← denotation?_map hleaf h (hall e (by simp)),
      ← denotations?_map hleaf h fun x hx => hall x (List.mem_cons_of_mem e hx)]
    cases denotation? leaf operation table e <;> cases denotations? leaf operation table es <;> rfl

end

end

/-- Reducing the leaves is reducing the result. -/
theorem bits?_eq_integerValue? {e : Expr} (he : e.BuiltFrom (· ∈ [.add, .sub, .mul])) :
    e.bits? table = (e.integerValue? table).map (BitVec.ofInt 64) := by
  refine (denotation?_map (fun _ => rfl) ?_ he).symm
  intro o ho x y
  cases o with
  | add => exact congrArg some (BitVec.ofInt_add x y)
  | sub => exact congrArg some (Word.bits_sub x y)
  | mul => exact congrArg some (BitVec.ofInt_mul x y)
  | _ => simp at ho

/-- Integers, names and sizes under operators other than the power evaluate to the word that they denote as bit vectors
of 64 bits, if they denote one. Otherwise, and not else, evaluation fails, with the fault of the first check that fails,
at its place. If the operators are sums, differences and products only, the word is the residue of the exact integer. -/
theorem value_arithmetic (hsizes : table.HasWordSizes) {e : Expr} (he : e.BuiltFrom (· ≠ .pow)) (pending : Pending) :
    (∀ v, value table pending e = .ok v ↔ ∃ w, e.bits? table = some w ∧ v = w.toNat) ∧
      (∀ fault, value table pending e = .error fault ↔
        ∃ c, e.checks.find? (Check.fails table) = some c ∧ fault = ⟨c.cause table pending, c.location⟩) ∧
      (e.BuiltFrom (· ∈ [.add, .sub, .mul]) →
        ∀ v, value table pending e = .ok v ↔ ∃ z, e.integerValue? table = some z ∧ v = z % 2 ^ 64) := by
  have hagrees : Agrees table pending (value table pending e) (e.bits? table) e.checks := value_agrees hsizes he
  have hvalue : ∀ v, value table pending e = .ok v ↔ ∃ w, e.bits? table = some w ∧ v = w.toNat := by
    intro v
    rcases hagrees with ⟨w, hvalue, hbits, -⟩ | ⟨c, hvalue, hbits, -⟩
    · simp [hvalue, hbits, eq_comm]
    · simp [hvalue, hbits]
  refine ⟨hvalue, fun fault => ?_, fun hring v => ?_⟩
  · rcases hagrees with ⟨w, hvalue, -, hchecks⟩ | ⟨c, hvalue, -, hchecks⟩
    · simp [hvalue, hchecks]
    · simp [hvalue, hchecks, Check.fault, eq_comm]
  · have hword : ∀ z : Int, ((BitVec.ofInt 64 z).toNat : Int) = z % 2 ^ 64 := by
      intro z
      rw [BitVec.toNat_ofInt, Int.toNat_of_nonneg (Int.emod_nonneg z (by decide))]
      rfl
    rw [hvalue, bits?_eq_integerValue? hring]
    constructor
    · rintro ⟨w, hw, rfl⟩
      obtain ⟨z, hz, rfl⟩ := Option.map_eq_some_iff.1 hw
      exact ⟨z, hz, hword z⟩
    · rintro ⟨z, hz, rfl⟩
      exact ⟨.ofInt 64 z, by rw [hz, Option.map_some], (hword z).symm⟩

/-- The largest word is divided by a size. A divisor is zero in front of a name that is not known, and it is the divisor
which is blamed. -/
theorem value_arithmetic_division :
    let table : SymbolTable := ⟨[("a", ⟨none, .region 0 3⟩)]⟩
    let place : Location := ⟨"m", 1, 6, 1, ""⟩
    let lowest : Expr := .apply none (.known .sub) [.integer none 0, .integer none 1]
    let zero : Expr := .apply (some place) (.known .sub) [.integer none 1, .integer none 1]
    let quotient : Expr := .apply none (.known .div) [lowest, .sizeof none (.name none "a")]
    let remainder : Expr := .apply none (.known .mod) [.integer none 7, zero, .name none "q"]
    (table.HasWordSizes ∧ quotient.BuiltFrom (· ≠ .pow) ∧ remainder.BuiltFrom (· ≠ .pow) ∧
        lowest.BuiltFrom (· ≠ .pow) ∧ lowest.BuiltFrom (· ∈ [.add, .sub, .mul])) ∧
      value table [] quotient = .ok 6148914691236517205 ∧
      value table [] remainder = .error ⟨.moduloByZero, some place⟩ ∧ value table [] lowest = .ok (2 ^ 64 - 1) := by
  intro table place lowest zero quotient remainder
  have hsizes : table.HasWordSizes := by
    intro name l address size hmem
    simp only [table, List.mem_singleton, Prod.mk.injEq, Symbol.mk.injEq, Meaning.region.injEq] at hmem
    obtain ⟨-, -, -, rfl⟩ := hmem
    decide
  have hring : lowest.BuiltFrom (· ∈ [.add, .sub, .mul]) := .apply (by decide) (by simp [BuiltFrom.integer])
  have hlowest : lowest.BuiltFrom (· ≠ .pow) := .apply (by decide) (by simp [BuiltFrom.integer])
  have hzero : zero.BuiltFrom (· ≠ .pow) := .apply (by decide) (by simp [BuiltFrom.integer])
  have hquotient : quotient.BuiltFrom (· ≠ .pow) := .apply (by decide) (by simp [hlowest, BuiltFrom.sizeof])
  have hremainder : remainder.BuiltFrom (· ≠ .pow) :=
    .apply (by decide) (by simp [hzero, BuiltFrom.integer, BuiltFrom.name])
  refine ⟨⟨hsizes, hquotient, hremainder, hlowest, hring⟩, ?_, ?_, ?_⟩
  · exact ((value_arithmetic hsizes hquotient []).1 _).2 ⟨6148914691236517205#64, rfl, rfl⟩
  · exact ((value_arithmetic hsizes hremainder []).2.1 _).2 ⟨.divisor .mod zero, rfl, rfl⟩
  · exact ((value_arithmetic hsizes hlowest []).2.2 hring _).2 ⟨-1, rfl, rfl⟩

end Expr

end AvmAssembler
