import AvmAssembler.Proofs.Assembly.Values

/-! # Causes of faults

Why expressions and statements fail. Among symbols of which no size is negative, no value is negative, so no shift
count and no exponent is: what the arithmetic could not express does not occur.
-/

namespace AvmAssembler

/-- The cause can be that of an expression among symbols of which no size is negative. -/
def Cause.IsOfValue : Cause → Prop
  | misplacedString | misplacedFill | misplacedType _ | notAValue _ | fewOperands .. | divisionByZero | moduloByZero
  | unknownOperator _ | powerRange | sizeofNonVariable .. | undeclared .. | usedEarly .. => True
  | _ => False

/-- The cause can be that of a statement whose name, if it declares one, is free. -/
def Cause.IsOfStatement : Cause → Prop
  | noSuchInstruction _ | missingArgument _ | unwantedArgument _ | notAStatement _ | negativeFill | hugeFill _
  | embedding .. => True
  | cause => cause.IsOfValue

theorem Cause.IsOfValue.isOfStatement {cause : Cause} (h : cause.IsOfValue) : cause.IsOfStatement := by
  cases cause <;> first | exact h | trivial

/-! ## Wordings -/

theorem toString_text (s : String) : toString s = s := rfl

/-- How the wording of such a cause starts. -/
theorem Cause.IsOfStatement.message_head {cause : Cause} (h : cause.IsOfStatement) :
    cause.message.toList.head? ∈ ['u', '\'', 's', 'f', 't', 'c', 'd', 'm'].map some ∨ cause = .powerRange := by
  cases cause with
  | powerRange => exact .inr rfl
  | _ =>
    left
    unfold message
    dsimp only
    first | exact h.elim | simp [toString_text]

theorem Cause.IsOfStatement.message_ne_redefinition {cause : Cause} (h : cause.IsOfStatement) (name : String) :
    cause.message ≠ s!"redefinition of '{name}'" := by
  intro heq
  rcases h.message_head with hhead | rfl
  · rw [heq] at hhead
    simp [toString_text] at hhead
  · have hthird := congrArg (fun s => s.toList[2]?) heq
    unfold message at hthird
    simp [toString_text] at hthird

/-! ## Operators -/

namespace Operator

theorem shift_ne_error {amount : Int} (h : 0 ≤ amount) (f : Nat → Int) (cause : Cause) :
    shift amount f ≠ .error cause := by
  unfold shift
  split
  · simp
  · split
    · omega
    · simp

theorem apply_error {o : Operator} {x y : Int} {cause : Cause} (hy : 0 ≤ y) (h : o.apply x y = .error cause) :
    cause.IsOfValue := by
  cases o with
  | add | sub | mul | conj | disj => cases h
  | div | mod =>
    simp only [apply] at h
    split at h
    · cases h
      trivial
    · cases h
  | shiftRight | shiftLeft =>
    simp only [apply] at h
    exact absurd h (shift_ne_error hy _ cause)
  | pow =>
    simp only [apply] at h
    split at h
    · cases h
    · cases h
      trivial
    · rename_i hpower
      unfold Binary64.power at hpower
      simp only at hpower
      split at hpower
      · cases hpower
      · split at hpower
        · rename_i hnegative
          simp only [Bool.and_eq_true, decide_eq_true_eq] at hnegative
          omega
        · split at hpower <;> cases hpower

end Operator

theorem OperatorSign.apply_error {sign : OperatorSign} {x y : Int} {cause : Cause} (hy : 0 ≤ y)
    (h : sign.apply x y = .error cause) : cause.IsOfValue := by
  cases sign with
  | known o => exact Operator.apply_error hy h
  | unknown text =>
    cases h
    trivial

/-! ## Expressions -/

namespace Expr

variable {table : SymbolTable} {pending : Pending} {fault : Fault}

theorem undefined_isOfValue (l : Option Location) (name : String) :
    (undefined table pending l name).cause.IsOfValue := by
  unfold undefined
  split <;> trivial

theorem nameValue_error {l : Option Location} {name : String} (h : nameValue table pending l name = .error fault) :
    fault.cause.IsOfValue := by
  unfold nameValue at h
  split at h
  · cases h
  · cases h
    exact undefined_isOfValue l name

theorem sizeofValue_error {target : SizeofTarget} (h : sizeofValue table pending target = .error fault) :
    fault.cause.IsOfValue := by
  unfold sizeofValue at h
  split at h
  · cases h
  · split at h
    · cases h
      exact undefined_isOfValue _ _
    · split at h
      · cases h
      · cases h
        trivial

mutual

/-- Why an expression has no value. -/
theorem value_error (hsizes : table.HasSizes) : ∀ {e : Expr}, value table pending e = .error fault →
    fault.cause.IsOfValue
  | .integer .., h | .float .., h => by cases h
  | .name .., h => nameValue_error h
  | .sizeof .., h => sizeofValue_error h
  | .apply l sign [], h | .apply l sign [_], h | .string .., h | .fill .., h | .type .., h | .foreign .., h => by
    cases h
    trivial
  | .apply l sign (first :: second :: rest), h => by
    rcases bind_eq_error.1 h with hfirst | ⟨x, hfirst, hrest⟩
    · exact value_error hsizes hfirst
    · exact applyAll_error hsizes hrest

theorem applyAll_error (hsizes : table.HasSizes) : ∀ {es : List Expr} {sign : OperatorSign} {x : Int},
    applyAll table pending sign x es = .error fault → fault.cause.IsOfValue
  | [], _, _, h => by cases h
  | e :: es, sign, x, h => by
    rcases bind_eq_error.1 h with hvalue | ⟨y, hvalue, hrest⟩
    · exact value_error hsizes hvalue
    · split at hrest
      · exact applyAll_error hsizes hrest
      · rename_i cause hcause
        cases hrest
        exact OperatorSign.apply_error (value_nonneg hsizes hvalue) hcause

end

end Expr

end AvmAssembler
