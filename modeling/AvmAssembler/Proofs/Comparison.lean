import AvmAssembler.Proofs.Outcome

/-! # Two runs side by side

The same steps are taken from two states that are alike. The two runs come to the same results and leave states that
are alike, until the first run is cut off; from there on the second run only has to add to what the first has left. With
states that are alike only if they are equal and satisfy a condition, the condition is an invariant of a single run.
-/

namespace AvmAssembler

variable {ε σ α β : Type}

/-- However the step ends, it leaves a state that satisfies the condition. -/
def Leaves (step : EStateM ε σ α) (s : σ) (P : σ → Prop) : Prop :=
  Leads step s (fun _ t => P t) fun _ t => P t

theorem Leaves.bind {step : EStateM ε σ α} {next : α → EStateM ε σ β} {s : σ} {P : σ → Prop} (h : Leaves step s P)
    (hnext : ∀ x t, P t → Leaves (next x) t P) : Leaves (step >>= next) s P :=
  Leads.of_bind h hnext fun _ _ h => h

theorem Leaves.mono {step : EStateM ε σ α} {s : σ} {P Q : σ → Prop} (h : Leaves step s P) (hPQ : ∀ t, P t → Q t) :
    Leaves step s Q :=
  Leads.mono h (fun _ => hPQ) fun _ => hPQ

theorem Leaves.exists {step : EStateM ε σ α} {s : σ} {P : σ → Prop} (h : Leaves step s P) : ∃ t, P t := by
  cases hs : step s with
  | ok x t => exact ⟨t, Leads.at_ok h hs⟩
  | error e t => exact ⟨t, Leads.at_error h hs⟩

/-- A step on a part of the state, whose failures become failures of the whole. -/
def onPart {ε' σ' : Type} (view : σ' → σ) (put : σ' → σ → σ') (raise : ε → ε') (step : σ' → EStateM ε σ α) :
    EStateM ε' σ' α := fun s =>
  match step s (view s) with
  | .ok x u => .ok x (put s u)
  | .error e u => .error (raise e) (put s u)

section

variable {ε' σ' : Type} {view : σ' → σ} {put : σ' → σ → σ'} {raise : ε → ε'} {step : σ' → EStateM ε σ α}
  {s : σ'} {u : σ}

theorem onPart_of_ok {x : α} (h : step s (view s) = .ok x u) : onPart view put raise step s = .ok x (put s u) := by
  simp only [onPart, h]

theorem onPart_of_error {e : ε} (h : step s (view s) = .error e u) :
    onPart view put raise step s = .error (raise e) (put s u) := by
  simp only [onPart, h]

end

/-- How the states of two runs are compared. -/
structure Comparison (ε σ : Type) where
  /-- The runs agree up to here. -/
  same : σ → σ → Prop
  /-- The first run was cut off by a failure in the one state; the second has come to the other. -/
  cut : ε → σ → σ → Prop
  /-- What steps may do once they are taken in the second run alone. -/
  later : σ → σ → Prop
  later_refl (s : σ) : later s s
  later_trans {s t u : σ} : later s t → later t u → later s u
  cut_later {e : ε} {s t u : σ} : cut e s t → later t u → cut e s u

namespace Comparison

/-- Taken in both states, the step has the same result and leaves states in which the runs agree, or it cuts off the
first run. -/
def Agree (c : Comparison ε σ) (step : EStateM ε σ α) (s t : σ) : Prop :=
  Leads step s (fun x u => ∃ v, step t = .ok x v ∧ c.same u v)
    fun e u => (∃ v, step t = .error e v ∧ c.same u v) ∨ Leaves step t (c.cut e u)

/-- The step keeps up the agreement of two runs, and in the second alone it does what it may. -/
structure Respects (c : Comparison ε σ) (step : EStateM ε σ α) : Prop where
  agree {s t : σ} : c.same s t → c.Agree step s t
  later (s : σ) : Leaves step s (c.later s)

variable {c : Comparison ε σ} {step : EStateM ε σ α} {next : α → EStateM ε σ β}

/-- Another step does in both states what the step does from there. -/
theorem Agree.of_eq {whole : EStateM ε σ α} {s t u v : σ} (hs : whole s = step u) (ht : whole t = step v)
    (h : c.Agree step u v) : c.Agree whole s t := by
  simpa only [Agree, Leaves, Leads, hs, ht] using h

/-- Both runs go on with a value, both fail, or the first is cut off. -/
theorem Agree.cases {s t : σ} (h : c.Agree step s t) :
    (∃ x u v, step s = .ok x u ∧ step t = .ok x v ∧ c.same u v) ∨
      (∃ e u v, step s = .error e u ∧ step t = .error e v ∧ c.same u v) ∨
      ∃ e u, step s = .error e u ∧ Leaves step t (c.cut e u) := by
  cases hs : step s with
  | ok x u =>
    obtain ⟨v, ht, hsame⟩ := Leads.at_ok h hs
    exact .inl ⟨x, u, v, rfl, ht, hsame⟩
  | error e u =>
    rcases Leads.at_error h hs with ⟨v, ht, hsame⟩ | hcut
    · exact .inr (.inl ⟨e, u, v, rfl, ht, hsame⟩)
    · exact .inr (.inr ⟨e, u, rfl, hcut⟩)

namespace Respects

/-- Steps after the one that cuts off the first run are taken in the second alone. -/
theorem bind (h : c.Respects step) (hnext : ∀ x, c.Respects (next x)) : c.Respects (step >>= next) where
  agree {s t} hst := by
    rcases (h.agree hst).cases with ⟨x, u, v, hs, ht, huv⟩ | ⟨e, u, v, hs, ht, huv⟩ | ⟨e, u, hs, hcut⟩
    · exact ((hnext x).agree huv).of_eq (bind_of_ok hs) (bind_of_ok ht)
    · exact Leads.of_error (bind_of_error hs) (.inl ⟨v, bind_of_error ht, huv⟩)
    · refine Leads.of_error (bind_of_error hs) (.inr (hcut.bind fun x v hv => ?_))
      exact ((hnext x).later v).mono fun _ hlater => c.cut_later hv hlater
  later s := (h.later s).bind fun x t ht => ((hnext x).later t).mono fun _ hlater => c.later_trans ht hlater

theorem pure (x : α) : c.Respects (pure x) where
  agree {_ t} hst := Leads.of_pure ⟨t, rfl, hst⟩
  later s := Leads.of_pure (c.later_refl s)

theorem throw (e : ε) : c.Respects (throw e : EStateM ε σ α) where
  agree {_ t} hst := Leads.of_throw (.inl ⟨t, rfl, hst⟩)
  later s := Leads.of_throw (c.later_refl s)

theorem ite {p : Prop} [Decidable p] {other : EStateM ε σ α} (h : c.Respects step) (hother : c.Respects other) :
    c.Respects (if p then step else other) := by
  split
  · exact h
  · exact hother

/-- What is read from the state may only be what the runs agree in. -/
theorem get {next : σ → EStateM ε σ β} (hread : ∀ s t, c.same s t → next s = next t)
    (hnext : ∀ s, c.Respects (next s)) : c.Respects (get >>= next) where
  agree {s t} hst := by
    have hs : (MonadState.get >>= next) s = next s s := rfl
    have ht : (MonadState.get >>= next) t = next s t := congrFun (hread s t hst).symm t
    exact ((hnext s).agree hst).of_eq hs ht
  later s := (hnext s).later s

theorem modify {f : σ → σ} (hsame : ∀ s t, c.same s t → c.same (f s) (f t)) (hlater : ∀ s, c.later s (f s)) :
    c.Respects (modify f) where
  agree {s t} hst := Leads.of_modify ⟨f t, rfl, hsame s t hst⟩
  later s := Leads.of_modify (hlater s)

/-- A step on a part of the state keeps up the agreement of the whole. What step it is may depend on what the runs agree
in. -/
theorem part {ε' σ' : Type} {d : Comparison ε' σ'} {step : σ' → EStateM ε σ α} {raise : ε → ε'} {view : σ' → σ}
    {put : σ' → σ → σ'} (h : ∀ s, c.Respects (step s))
    (hsame : ∀ s t, d.same s t →
      step s = step t ∧ c.same (view s) (view t) ∧ ∀ u v, c.same u v → d.same (put s u) (put t v))
    (hcut : ∀ s t e u v, c.cut e u v → d.cut (raise e) (put s u) (put t v))
    (hlater : ∀ s u, c.later (view s) u → d.later s (put s u)) : d.Respects (onPart view put raise step) where
  agree {s t} hst := by
    obtain ⟨hstep, hview, hput⟩ := hsame s t hst
    rcases ((h s).agree hview).cases with ⟨x, u, v, hs, ht, huv⟩ | ⟨e, u, v, hs, ht, huv⟩ | ⟨e, u, hs, hleaves⟩
    · exact Leads.of_ok (onPart_of_ok hs) ⟨put t v, onPart_of_ok (hstep ▸ ht), hput u v huv⟩
    · exact Leads.of_error (onPart_of_error hs) (.inl ⟨put t v, onPart_of_error (hstep ▸ ht), hput u v huv⟩)
    · refine Leads.of_error (onPart_of_error hs) (.inr ?_)
      rw [hstep] at hleaves
      cases ht : step t (view t) with
      | ok x v => exact Leads.of_ok (onPart_of_ok ht) (hcut s t e u v (hleaves.at_ok ht))
      | error f v => exact Leads.of_error (onPart_of_error ht) (hcut s t e u v (hleaves.at_error ht))
  later s := by
    have hleaves := (h s).later (view s)
    cases hs : step s (view s) with
    | ok x u => exact Leads.of_ok (onPart_of_ok hs) (hlater s u (hleaves.at_ok hs))
    | error e u => exact Leads.of_error (onPart_of_error hs) (hlater s u (hleaves.at_error hs))

/-- A step that cannot cut off the first run, and whose failures are handled. -/
theorem handle {ε' : Type} {d : Comparison ε' σ} {whole : EStateM ε' σ α} (handler : ε → EStateM ε' σ α)
    (h : c.Respects step)
    (hwhole : ∀ s, whole s = match step s with
      | .ok x u => .ok x u
      | .error e u => handler e u)
    (hsame : d.same = c.same) (hcut : ∀ e s t, ¬c.cut e s t) (hlater : d.later = c.later)
    (hhandler : ∀ e, d.Respects (handler e)) : d.Respects whole where
  agree {s t} hst := by
    rcases (h.agree (hsame ▸ hst)).cases with ⟨x, u, v, hs, ht, huv⟩ | ⟨e, u, v, hs, ht, huv⟩ | ⟨e, u, -, hleaves⟩
    · exact Leads.of_ok (by rw [hwhole, hs]) ⟨v, by rw [hwhole, ht], hsame ▸ huv⟩
    · exact ((hhandler e).agree (hsame ▸ huv)).of_eq (by rw [hwhole, hs]) (by rw [hwhole, ht])
    · obtain ⟨v, hv⟩ := hleaves.exists
      exact (hcut e u v hv).elim
  later s := by
    have hleaves := h.later s
    cases hs : step s with
    | ok x u =>
      exact Leads.of_ok (by rw [hwhole, hs]) (hlater ▸ hleaves.at_ok hs)
    | error e u =>
      have hs' : whole s = handler e u := by rw [hwhole, hs]
      have hu : d.later s u := hlater ▸ hleaves.at_error hs
      exact Leads.of_eq hs' (((hhandler e).later u).mono fun _ => d.later_trans hu)

end Respects

/-- A run is compared with itself: what its states satisfy is all that is kept up. -/
def ofInvariant (I : σ → Prop) : Comparison ε σ where
  same s t := t = s ∧ I s
  cut _ _ _ := False
  later _ _ := True
  later_refl _ := trivial
  later_trans _ _ := trivial
  cut_later h _ := h

theorem Respects.of_invariant {I : σ → Prop} (h : ∀ s, I s → Leaves step s I) : (ofInvariant I).Respects step where
  agree {s t} hst := by
    obtain ⟨rfl, hs⟩ := hst
    cases hstep : step t with
    | ok x u => exact Leads.of_ok hstep ⟨u, hstep, rfl, (h t hs).at_ok hstep⟩
    | error e u => exact Leads.of_error hstep (.inl ⟨u, hstep, rfl, (h t hs).at_error hstep⟩)
  later s := by
    cases hstep : step s with
    | ok x u => exact Leads.of_ok hstep trivial
    | error e u => exact Leads.of_error hstep trivial

end Comparison

end AvmAssembler
