/-! # Outcomes of steps

A step ends with a value or with a failure, and leaves a state in both cases. Steps in sequence are followed one at a
time, either along equations for their results or along conditions on them.
-/

namespace AvmAssembler

variable {ε δ σ α β : Type} {step : EStateM ε σ α} {next : α → EStateM ε σ β} {s t : σ} {x : α} {e : ε}

/-! ## Equations -/

theorem bind_of_ok (h : step s = .ok x t) : (step >>= next) s = next x t := by
  simp only [bind, EStateM.bind, h]

theorem bind_of_error (h : step s = .error e t) : (step >>= next) s = .error e t := by
  simp only [bind, EStateM.bind, h]

/-- Steps with the same outcome may stand for each other. -/
theorem bind_of_eq {other : EStateM ε σ α} (h : step s = other t) : (step >>= next) s = (other >>= next) t := by
  simp only [bind, EStateM.bind, h]

/-- Steps in sequence give a value only if each of them does. -/
theorem exists_of_bind_eq_ok {y : β} {u : σ} (h : (step >>= next) s = .ok y u) :
    ∃ x t, step s = .ok x t ∧ next x t = .ok y u := by
  cases hs : step s with
  | ok x t =>
    rw [bind_of_ok hs] at h
    exact ⟨x, t, rfl, h⟩
  | error e t =>
    rw [bind_of_error hs] at h
    cases h

theorem bind_eq_error_cases {u : σ} (h : (step >>= next) s = .error e u) :
    step s = .error e u ∨ ∃ x t, step s = .ok x t ∧ next x t = .error e u := by
  cases hs : step s with
  | ok x t =>
    rw [bind_of_ok hs] at h
    exact .inr ⟨x, t, rfl, h⟩
  | error e' t =>
    rw [bind_of_error hs] at h
    cases h
    exact .inl rfl

/-- Where the steps that follow cannot fail, a failure is that of the first one. -/
theorem error_of_bind (hnext : ∀ x u, ∃ y v, next x u = .ok y v) (h : (step >>= next) s = .error e t) :
    step s = .error e t := by
  rcases bind_eq_error_cases h with he | ⟨x, u, -, he⟩
  · exact he
  · obtain ⟨y, v, hok⟩ := hnext x u
    cases hok.symm.trans he

theorem adaptExcept_eq_ok {f : ε → δ} : step.adaptExcept f s = .ok x t ↔ step s = .ok x t := by
  cases hs : step s <;> simp [EStateM.adaptExcept, hs]

theorem adaptExcept_eq_error {f : ε → δ} {d : δ} :
    step.adaptExcept f s = .error d t ↔ ∃ e, step s = .error e t ∧ f e = d := by
  cases hs : step s with
  | ok x u => simp [EStateM.adaptExcept, hs]
  | error e u =>
    simp only [EStateM.adaptExcept, hs, EStateM.Result.error.injEq]
    constructor
    · rintro ⟨rfl, rfl⟩
      exact ⟨e, ⟨rfl, rfl⟩, rfl⟩
    · rintro ⟨_, ⟨rfl, rfl⟩, rfl⟩
      exact ⟨rfl, rfl⟩

@[simp] theorem pure_result (x : α) (s : σ) : (pure x : EStateM ε σ α) s = .ok x s := rfl

@[simp] theorem modify_result (f : σ → σ) (s : σ) : (modify f : EStateM ε σ PUnit) s = .ok ⟨⟩ (f s) := rfl

@[simp] theorem get_bind (next : σ → EStateM ε σ β) (s : σ) : (get >>= next) s = next s s := rfl

@[simp] theorem modify_bind (f : σ → σ) (next : PUnit → EStateM ε σ β) (s : σ) :
    (modify f >>= next) s = next ⟨⟩ (f s) := rfl

theorem ok_bind (x : α) (f : α → Except ε β) : ((.ok x : Except ε α) >>= f) = f x := rfl

theorem bind_eq_ok {x : Except ε α} {f : α → Except ε β} {b : β} :
    (x >>= f) = .ok b ↔ ∃ a, x = .ok a ∧ f a = .ok b := by
  cases x <;> simp [bind, Except.bind]

theorem bind_eq_error {x : Except ε α} {f : α → Except ε β} {e : ε} :
    (x >>= f) = .error e ↔ x = .error e ∨ ∃ a, x = .ok a ∧ f a = .error e := by
  cases x <;> simp [bind, Except.bind]

/-! ## Conditions -/

/-- Started in a state, a step ends with a value and a state as the one condition says, or with a failure and a state as
the other says. -/
def Leads (step : EStateM ε σ α) (s : σ) (ok : α → σ → Prop) (failed : ε → σ → Prop) : Prop :=
  match step s with
  | .ok x t => ok x t
  | .error e t => failed e t

namespace Leads

variable {ok ok' : α → σ → Prop} {okNext : β → σ → Prop} {failed failed' : ε → σ → Prop}

theorem of_ok (h : step s = .ok x t) (hx : ok x t) : Leads step s ok failed := by
  simpa only [Leads, h] using hx

theorem of_error (h : step s = .error e t) (he : failed e t) : Leads step s ok failed := by
  simpa only [Leads, h] using he

theorem of_eq {other : EStateM ε σ α} (heq : step s = other t) (h : Leads other t ok failed) :
    Leads step s ok failed := by
  simpa only [Leads, heq] using h

theorem at_ok (h : Leads step s ok failed) (heq : step s = .ok x t) : ok x t := by
  simpa only [Leads, heq] using h

theorem at_error (h : Leads step s ok failed) (heq : step s = .error e t) : failed e t := by
  simpa only [Leads, heq] using h

theorem mono (h : Leads step s ok failed) (hok : ∀ x t, ok x t → ok' x t)
    (hfailed : ∀ e t, failed e t → failed' e t) : Leads step s ok' failed' := by
  cases hs : step s with
  | ok x t => exact of_ok hs (hok x t (h.at_ok hs))
  | error e t => exact of_error hs (hfailed e t (h.at_error hs))

theorem and (h : Leads step s ok failed) (h' : Leads step s ok' failed') :
    Leads step s (fun x t => ok x t ∧ ok' x t) (fun e t => failed e t ∧ failed' e t) := by
  cases hs : step s with
  | ok x t => exact of_ok hs ⟨h.at_ok hs, h'.at_ok hs⟩
  | error e t => exact of_error hs ⟨h.at_error hs, h'.at_error hs⟩

theorem of_bind (h : Leads step s ok failed) (hnext : ∀ x t, ok x t → Leads (next x) t okNext failed')
    (hfailed : ∀ e t, failed e t → failed' e t) : Leads (step >>= next) s okNext failed' := by
  cases hs : step s with
  | ok x t => exact of_eq (bind_of_ok hs) (hnext x t (h.at_ok hs))
  | error e t => exact of_error (bind_of_error hs) (hfailed e t (h.at_error hs))

theorem adaptExcept {f : ε → δ} {failedAs : δ → σ → Prop} (h : Leads step s ok failed)
    (hf : ∀ e t, failed e t → failedAs (f e) t) : Leads (step.adaptExcept f) s ok failedAs := by
  cases hs : step s with
  | ok x t => exact of_ok (adaptExcept_eq_ok.2 hs) (h.at_ok hs)
  | error e t => exact of_error (adaptExcept_eq_error.2 ⟨e, hs, rfl⟩) (hf e t (h.at_error hs))

theorem of_ok_bind (h : step s = .ok x t) (hnext : Leads (next x) t okNext failed) :
    Leads (step >>= next) s okNext failed :=
  of_eq (bind_of_ok h) hnext

theorem of_pure (hx : ok x s) : Leads (pure x) s ok failed :=
  of_ok rfl hx

theorem of_throw (he : failed e s) : Leads (throw e : EStateM ε σ α) s ok failed :=
  of_error rfl he

theorem of_throw_bind (he : failed e s) : Leads (throw e >>= next) s okNext failed :=
  of_error rfl he

theorem of_ite {c : Prop} [Decidable c] {other : EStateM ε σ α} (h : Leads step s ok failed)
    (hother : Leads other s ok failed) : Leads (if c then step else other) s ok failed := by
  split
  · exact h
  · exact hother

theorem of_get {next : σ → EStateM ε σ β} (h : Leads (next s) s okNext failed) :
    Leads (get >>= next) s okNext failed := h

theorem of_modify {f : σ → σ} {okUnit : PUnit → σ → Prop} (h : okUnit ⟨⟩ (f s)) :
    Leads (modify f : EStateM ε σ PUnit) s okUnit failed :=
  of_ok rfl h

theorem of_modify_bind {f : σ → σ} {next : PUnit → EStateM ε σ β} (h : Leads (next ⟨⟩) (f s) okNext failed) :
    Leads (modify f >>= next) s okNext failed := h

end Leads

end AvmAssembler
