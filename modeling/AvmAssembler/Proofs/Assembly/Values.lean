import AvmAssembler.Proofs.Outcome
import AvmAssembler.Proofs.Symbols.Lookup
import AvmAssembler.Source.Expr.Value
import AvmAssembler.Text.Utf8
import Mathlib.Data.List.Infix

/-! # Values in growing tables

A table only ever grows, and a value found once stays the same: it depends neither on what is defined later nor on the
names that are known to come. If no region has a negative size, no value is negative. The bytes that an initializer
stands for are made of such values.
-/

namespace AvmAssembler

namespace SymbolTable

/-- What the earlier table defines, the later one defines in the same way. -/
def Agrees (earlier later : SymbolTable) : Prop :=
  ∀ name symbol, earlier.get? name = some symbol → later.get? name = some symbol

theorem Agrees.of_prefix {earlier later : SymbolTable} (h : earlier.entries <+: later.entries) : Agrees earlier later := by
  obtain ⟨more, hmore⟩ := h
  intro name symbol hget
  simp only [get?] at hget ⊢
  simp [← hmore, List.lookup_append, hget]

/-- No region of the table has a negative size. -/
def HasSizes (table : SymbolTable) : Prop :=
  ∀ name l address size, (name, ⟨l, .region address size⟩) ∈ table.entries → 0 ≤ size

end SymbolTable

/-! ## Operators on natural numbers -/

theorem Operator.shift_nonneg {amount v : Int} {f : Nat → Int} (hf : ∀ n, 0 ≤ f n)
    (h : shift amount f = .ok v) : 0 ≤ v := by
  unfold shift at h
  split at h
  · cases h
    exact Int.le_refl 0
  · split at h
    · cases h
    · cases h
      exact hf _

theorem Operator.apply_nonneg {o : Operator} {x y v : Int} (hx : 0 ≤ x) (hy : 0 ≤ y)
    (h : o.apply x y = .ok v) : 0 ≤ v := by
  obtain ⟨m, rfl⟩ := Int.eq_ofNat_of_zero_le hx
  obtain ⟨n, rfl⟩ := Int.eq_ofNat_of_zero_le hy
  cases o with
  | add | sub | mul | conj | disj =>
    cases h
    exact Int.natCast_nonneg _
  | div =>
    simp only [apply] at h
    split at h
    · cases h
    · cases h
      exact Int.fdiv_nonneg hx hy
  | mod =>
    simp only [apply] at h
    split at h
    · cases h
    · cases h
      exact Int.fmod_nonneg hx hy
  | pow =>
    simp only [apply] at h
    split at h
    · cases h
      exact Int.natCast_nonneg _
    · cases h
    · cases h
  | shiftRight => exact shift_nonneg (fun n => Int.fdiv_nonneg hx (Int.natCast_nonneg n)) h
  | shiftLeft => exact shift_nonneg (fun n => Int.natCast_nonneg _) h

theorem OperatorSign.apply_nonneg {sign : OperatorSign} {x y v : Int} (hx : 0 ≤ x) (hy : 0 ≤ y)
    (h : sign.apply x y = .ok v) : 0 ≤ v := by
  cases sign with
  | known o => exact Operator.apply_nonneg hx hy h
  | unknown text => cases h

/-! ## Expressions -/

namespace Expr

variable {earlier later table : SymbolTable} {pending pending' : Pending}

theorem nameValue_ok {l : Option Location} {name : String} {v : Int} :
    nameValue table pending l name = .ok v ↔
      ∃ s, table.get? name = some s ∧ v = Word.ofInt s.meaning.value := by
  unfold nameValue
  cases table.get? name <;> simp [eq_comm]

theorem sizeofValue_ok {target : SizeofTarget} {v : Int} :
    sizeofValue table pending target = .ok v ↔
      (∃ l t, target = .type l t ∧ v = t.size) ∨
      ∃ l n first address, target = .name l n ∧ table.get? n = some ⟨first, .region address v⟩ := by
  cases target with
  | type l t => simp [sizeofValue, eq_comm]
  | name l n =>
    simp only [sizeofValue]
    cases hget : table.get? n with
    | none => simp [hget]
    | some s =>
      obtain ⟨first, meaning⟩ := s
      cases meaning <;> simp [hget, eq_comm]

theorem value_apply {l : Option Location} {sign : OperatorSign} {operands : List Expr} {v : Int} :
    value table pending (.apply l sign operands) = .ok v ↔
      ∃ first second rest x, operands = first :: second :: rest ∧ value table pending first = .ok x ∧
        applyAll table pending sign x (second :: rest) = .ok v := by
  match operands with
  | [] | [_] => simp [value]
  | first :: second :: rest => simp [value, bind_eq_ok]

theorem applyAll_cons {sign : OperatorSign} {x v : Int} {operand : Expr} {rest : List Expr} :
    applyAll table pending sign x (operand :: rest) = .ok v ↔
      ∃ y r, value table pending operand = .ok y ∧ sign.apply x y = .ok r ∧
        applyAll table pending sign r rest = .ok v := by
  simp only [applyAll, bind_eq_ok]
  constructor
  · rintro ⟨y, hy, h⟩
    cases hr : sign.apply x y with
    | ok r => exact ⟨y, r, hy, hr, by simpa [hr] using h⟩
    | error cause => simp [hr] at h
  · rintro ⟨y, r, hy, hr, h⟩
    exact ⟨y, hy, by simpa [hr] using h⟩

mutual

theorem value_of_agrees (hagrees : SymbolTable.Agrees earlier later) : ∀ {e : Expr} {v : Int},
    value earlier pending e = .ok v → value later pending' e = .ok v
  | .integer .., _, h | .float .., _, h => h
  | .name l n, v, h => by
    obtain ⟨s, hget, rfl⟩ := nameValue_ok.1 h
    exact nameValue_ok.2 ⟨s, hagrees _ _ hget, rfl⟩
  | .sizeof l target, v, h => by
    obtain htype | ⟨l, n, first, address, rfl, hget⟩ := sizeofValue_ok.1 h
    · exact sizeofValue_ok.2 (.inl htype)
    · exact sizeofValue_ok.2 (.inr ⟨l, n, first, address, rfl, hagrees _ _ hget⟩)
  | .apply l sign operands, v, h => by
    obtain ⟨first, second, rest, x, rfl, hfirst, hrest⟩ := value_apply.1 h
    exact value_apply.2 ⟨first, second, rest, x, rfl, value_of_agrees hagrees hfirst,
      applyAll_of_agrees hagrees hrest⟩

theorem applyAll_of_agrees (hagrees : SymbolTable.Agrees earlier later) : ∀ {es : List Expr}
    {sign : OperatorSign} {x v : Int}, applyAll earlier pending sign x es = .ok v →
    applyAll later pending' sign x es = .ok v
  | [], _, _, _, h => h
  | e :: es, sign, x, v, h => by
    obtain ⟨y, r, hy, hr, hrest⟩ := applyAll_cons.1 h
    exact applyAll_cons.2 ⟨y, r, value_of_agrees hagrees hy, hr, applyAll_of_agrees hagrees hrest⟩

end

mutual

theorem value_nonneg (hsizes : table.HasSizes) : ∀ {e : Expr} {v : Int},
    value table pending e = .ok v → 0 ≤ v
  | .integer .., v, h | .float .., v, h => by
    cases h
    exact Int.natCast_nonneg _
  | .name l n, v, h => by
    obtain ⟨s, -, rfl⟩ := nameValue_ok.1 h
    exact Int.natCast_nonneg _
  | .sizeof l target, v, h => by
    obtain ⟨l, t, rfl, rfl⟩ | ⟨l, n, first, address, rfl, hget⟩ := sizeofValue_ok.1 h
    · exact Int.natCast_nonneg _
    · exact hsizes n first address v (SymbolTable.mem_entries_of_get? hget)
  | .apply l sign operands, v, h => by
    obtain ⟨first, second, rest, x, rfl, hfirst, hrest⟩ := value_apply.1 h
    exact applyAll_nonneg hsizes (value_nonneg hsizes hfirst) hrest

theorem applyAll_nonneg (hsizes : table.HasSizes) : ∀ {es : List Expr} {sign : OperatorSign} {x v : Int},
    0 ≤ x → applyAll table pending sign x es = .ok v → 0 ≤ v
  | [], _, _, _, hx, h => by
    cases h
    exact hx
  | e :: es, sign, x, v, hx, h => by
    obtain ⟨y, r, hy, hr, hrest⟩ := applyAll_cons.1 h
    exact applyAll_nonneg hsizes (OperatorSign.apply_nonneg hx (value_nonneg hsizes hy) hr) hrest

end

end Expr

/-! ## Words and elements -/

namespace Expr

/-- The word that an expression amounts to among the symbols of a table, if it has a value. -/
def word? (table : SymbolTable) (e : Expr) : Option Nat :=
  match e.value table [] with
  | .ok v => some v.toNat
  | .error _ => none

/-- The elements that an initializer stands for: those of a string, one for each of its bytes; those of a fill, the
element of its value as often as its count says; otherwise the element of its word. -/
def encoding? (table : SymbolTable) (type : ElementType) : Expr → Option (List UInt8)
  | .fill _ value count => do
    let word ← value.word? table
    let times ← count.word? table
    pure (List.replicate times (bigEndian type.size word)).flatten
  | .string _ text => some ((Text.Utf8.encode text).flatMap fun b => bigEndian type.size b.toNat)
  | e => (e.word? table).map (bigEndian type.size)

def encodings? (table : SymbolTable) (type : ElementType) : List Expr → Option (List UInt8)
  | [] => some []
  | e :: es => do
    let bytes ← e.encoding? table type
    let more ← encodings? table type es
    pure (bytes ++ more)

variable {table : SymbolTable} {pending : Pending} {e : Expr}

theorem word?_of_value {v : Int} (h : e.value table pending = .ok v) : e.word? table = some v.toNat := by
  have hv : e.value table [] = .ok v := value_of_agrees (fun _ _ h => h) h
  simp only [word?, hv]

theorem value_of_word? (hsizes : table.HasSizes) {w : Nat} (h : e.word? table = some w) (pending : Pending) :
    e.value table pending = .ok w := by
  unfold word? at h
  split at h
  case h_1 v hv =>
    obtain rfl := Option.some.inj h
    rw [Int.toNat_of_nonneg (value_nonneg hsizes hv)]
    exact value_of_agrees (fun _ _ h => h) hv
  case h_2 => cases h

end Expr

end AvmAssembler
