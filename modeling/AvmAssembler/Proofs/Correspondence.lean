import AvmAssembler.Proofs.Comparison

/-! # Two different runs side by side

Steps are taken from two states that correspond, possibly different steps in each. They end alike: both with values or
both with failures that correspond, and in states that correspond again.
-/

namespace AvmAssembler

/-- How the states and the failures of two runs correspond. -/
structure Correspondence (ε σ : Type) where
  same : σ → σ → Prop
  failed : ε → ε → Prop

namespace Correspondence

variable {ε σ α β γ δ : Type}

/-- Taken from states that correspond, the two steps end alike. -/
def Mirrors (c : Correspondence ε σ) (value : α → β → Prop) (step : EStateM ε σ α) (step' : EStateM ε σ β) : Prop :=
  ∀ s s', c.same s s' → Leads step s (fun x t => ∃ y t', step' s' = .ok y t' ∧ value x y ∧ c.same t t')
    fun e t => ∃ e' t', step' s' = .error e' t' ∧ c.failed e e' ∧ c.same t t'

/-- States and failures that have the same image correspond. -/
def ofImages {σ' ε' : Type} (view : σ → σ') (raise : ε → ε') : Correspondence ε σ where
  same s t := view s = view t
  failed e e' := raise e = raise e'

/-- States and failures correspond to what they are moved to. -/
def ofMoves (move : σ → σ) (raise : ε → ε) : Correspondence ε σ where
  same s t := t = move s
  failed e e' := e' = raise e

variable {c : Correspondence ε σ} {value : α → β → Prop} {value' : γ → δ → Prop} {step : EStateM ε σ α}
  {step' : EStateM ε σ β} {next : α → EStateM ε σ γ} {next' : β → EStateM ε σ δ}

namespace Mirrors

theorem cases (h : c.Mirrors value step step') {s s' : σ} (hsame : c.same s s') :
    (∃ x t y t', step s = .ok x t ∧ step' s' = .ok y t' ∧ value x y ∧ c.same t t') ∨
      ∃ e t e' t', step s = .error e t ∧ step' s' = .error e' t' ∧ c.failed e e' ∧ c.same t t' := by
  have hleads := h s s' hsame
  cases hs : step s with
  | ok x t =>
    obtain ⟨y, t', hs', hvalue, ht⟩ := hleads.at_ok hs
    exact .inl ⟨x, t, y, t', rfl, hs', hvalue, ht⟩
  | error e t =>
    obtain ⟨e', t', hs', hfailed, ht⟩ := hleads.at_error hs
    exact .inr ⟨e, t, e', t', rfl, hs', hfailed, ht⟩

theorem of_cases
    (h : ∀ s s', c.same s s' → (∃ x t y t', step s = .ok x t ∧ step' s' = .ok y t' ∧ value x y ∧ c.same t t') ∨
      ∃ e t e' t', step s = .error e t ∧ step' s' = .error e' t' ∧ c.failed e e' ∧ c.same t t') :
    c.Mirrors value step step' := by
  intro s s' hsame
  rcases h s s' hsame with ⟨x, t, y, t', hs, hs', hvalue, ht⟩ | ⟨e, t, e', t', hs, hs', hfailed, ht⟩
  · exact Leads.of_ok hs ⟨y, t', hs', hvalue, ht⟩
  · exact Leads.of_error hs ⟨e', t', hs', hfailed, ht⟩

theorem pure {x : α} {y : β} (h : value x y) : c.Mirrors value (pure x) (pure y) :=
  fun _ s' hsame => Leads.of_pure ⟨y, s', rfl, h, hsame⟩

theorem throw {e e' : ε} (h : c.failed e e') : c.Mirrors value (throw e) (throw e') :=
  fun _ s' hsame => Leads.of_throw ⟨e', s', rfl, h, hsame⟩

theorem throw_bind {e e' : ε} (h : c.failed e e') : c.Mirrors value' (MonadExcept.throw e >>= next)
    (MonadExcept.throw e' >>= next') :=
  fun _ s' hsame => Leads.of_throw_bind ⟨e', s', rfl, h, hsame⟩

theorem bind (h : c.Mirrors value step step') (hnext : ∀ x y, value x y → c.Mirrors value' (next x) (next' y)) :
    c.Mirrors value' (step >>= next) (step' >>= next') := by
  intro s s' hsame
  rcases h.cases hsame with ⟨x, t, y, t', hs, hs', hvalue, ht⟩ | ⟨e, t, e', t', hs, hs', hfailed, ht⟩
  · refine Leads.of_eq (bind_of_ok hs) ?_
    rw [bind_of_ok hs']
    exact hnext x y hvalue t t' ht
  · exact Leads.of_error (bind_of_error hs) ⟨e', t', bind_of_error hs', hfailed, ht⟩

theorem ite {p : Prop} [Decidable p] {other : EStateM ε σ α} {other' : EStateM ε σ β} (h : c.Mirrors value step step')
    (hother : c.Mirrors value other other') :
    c.Mirrors value (if p then step else other) (if p then step' else other') := by
  split
  · exact h
  · exact hother

theorem get {next : σ → EStateM ε σ γ} {next' : σ → EStateM ε σ δ}
    (h : ∀ s s', c.same s s' → c.Mirrors value' (next s) (next' s')) :
    c.Mirrors value' (get >>= next) (get >>= next') :=
  fun s s' hsame => h s s' hsame s s' hsame

theorem modify {move move' : σ → σ} (h : ∀ s s', c.same s s' → c.same (move s) (move' s')) :
    c.Mirrors Eq (modify move) (modify move') :=
  fun s s' hsame => Leads.of_modify ⟨⟨⟩, move' s', rfl, rfl, h s s' hsame⟩

/-- Steps on parts that correspond are steps on wholes that do. -/
theorem part {ε' σ' : Type} {d : Correspondence ε' σ'} {step : σ' → EStateM ε σ α} {step' : σ' → EStateM ε σ β}
    {raise : ε → ε'} {view : σ' → σ} {put : σ' → σ → σ'}
    (h : ∀ s s', d.same s s' → c.Mirrors value (step s) (step' s') ∧ c.same (view s) (view s') ∧
      ∀ u u', c.same u u' → d.same (put s u) (put s' u'))
    (hraise : ∀ e e', c.failed e e' → d.failed (raise e) (raise e')) :
    d.Mirrors value (onPart view put raise step) (onPart view put raise step') := by
  intro s s' hsame
  obtain ⟨hstep, hview, hput⟩ := h s s' hsame
  rcases hstep.cases hview with ⟨x, u, y, u', hs, hs', hvalue, hu⟩ | ⟨e, u, e', u', hs, hs', hfailed, hu⟩
  · exact Leads.of_ok (onPart_of_ok hs) ⟨y, put s' u', onPart_of_ok hs', hvalue, hput u u' hu⟩
  · exact Leads.of_error (onPart_of_error hs) ⟨raise e', put s' u', onPart_of_error hs', hraise e e' hfailed, hput u u' hu⟩

/-- Failures that correspond are put in terms that do. -/
theorem adaptExcept {ε' : Type} {failed : ε' → ε' → Prop} {raise raise' : ε → ε'} (h : c.Mirrors value step step')
    (hraise : ∀ e e', c.failed e e' → failed (raise e) (raise' e')) :
    (Correspondence.mk c.same failed).Mirrors value (step.adaptExcept raise) (step'.adaptExcept raise') :=
  fun s s' hsame => (h s s' hsame).mono (fun _ _ ⟨y, t', hs', hxy, ht⟩ => ⟨y, t', adaptExcept_eq_ok.2 hs', hxy, ht⟩)
    (fun _ _ h => h) |>.adaptExcept fun e _ ⟨e', t', hs', he, ht⟩ =>
      ⟨raise' e', t', adaptExcept_eq_error.2 ⟨e', hs', rfl⟩, hraise e e' he, ht⟩

theorem mono {others : α → β → Prop} (h : c.Mirrors value step step') (hvalue : ∀ x y, value x y → others x y) :
    c.Mirrors others step step' :=
  fun s s' hsame => (h s s' hsame).mono (fun x _ ⟨y, t', hs', hxy, ht⟩ => ⟨y, t', hs', hvalue x y hxy, ht⟩) fun _ _ h => h

/-- Two steps that move to the same one end alike up to the moves. -/
theorem of_common {move : σ → σ} {raise : ε → ε} {common : EStateM ε σ γ} (g : α → γ) (g' : β → γ)
    (h : (ofMoves move raise).Mirrors (fun x z => z = g x) step common)
    (h' : (ofMoves move raise).Mirrors (fun y z => z = g' y) step' common) :
    (ofImages move raise).Mirrors (fun x y => g x = g' y) step step' := by
  refine of_cases fun s s' hsame => ?_
  have hmove : (ofMoves move raise).same s' (move s) := hsame
  rcases h.cases (s := s) rfl with ⟨x, t, _, _, hs, hcommon, rfl, rfl⟩ | ⟨e, t, _, _, hs, hcommon, rfl, rfl⟩
  · rcases h'.cases hmove with ⟨y, t', _, _, hs', hcommon', rfl, rfl⟩ | ⟨e', t', _, _, hs', hcommon', rfl, rfl⟩
    · obtain ⟨hvalue, ht⟩ := EStateM.Result.ok.inj (hcommon.symm.trans hcommon')
      exact .inl ⟨x, t, y, t', hs, hs', hvalue, ht⟩
    · cases hcommon.symm.trans hcommon'
  · rcases h'.cases hmove with ⟨y, t', _, _, hs', hcommon', rfl, rfl⟩ | ⟨e', t', _, _, hs', hcommon', rfl, rfl⟩
    · cases hcommon.symm.trans hcommon'
    · obtain ⟨hfailed, ht⟩ := EStateM.Result.error.inj (hcommon.symm.trans hcommon')
      exact .inr ⟨e, t, e', t', hs, hs', hfailed, ht⟩

end Mirrors

end Correspondence

end AvmAssembler
