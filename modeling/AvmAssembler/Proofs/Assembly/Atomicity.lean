import AvmAssembler.Proofs.Assembly.Layout

/-! # Statements that fail

A statement that fails leaves the memory and the records as they were, however far it has come. At most it binds its own
name, to a constant of value zero or to a region without bytes at the end of the memory, so that later uses of the name
are no faults of their own. Then the pass goes on with the statement behind, unless the fault is fatal or one too many.
-/

namespace AvmAssembler

namespace Assembly

variable {env : Surroundings} {pending : Pending} {a b start : Assembly} {s : Statement} {fault : Fault}
  {done rest : List Statement}

/-- The entry that a statement adds to the table if it fails: the name of a constant or a region, if it is free. -/
def placeholder? (a : Assembly) : Statement → Option (String × Symbol)
  | .constant l name _ => if a.symbols.contains name then none else some (name, ⟨l, .constant 0⟩)
  | .region l name _ _ =>
    if a.symbols.contains name then none else some (name, ⟨l, .region a.memory.length 0⟩)
  | _ => none

/-- The entry is for the name that the statement declares, which is free. -/
theorem placeholder?_eq_some {name : String} {symbol : Symbol} (h : a.placeholder? s = some (name, symbol)) :
    s.lateName? = some name ∧ a.symbols.get? name = none ∧
      (symbol = ⟨s.location, .constant 0⟩ ∨ symbol = ⟨s.location, .region a.memory.length 0⟩) := by
  cases s with
  | constant l n e =>
    simp only [placeholder?, Option.ite_none_left_eq_some, Option.some.injEq, Prod.mk.injEq] at h
    obtain ⟨hfree, rfl, rfl⟩ := h
    exact ⟨rfl, by simpa [SymbolTable.contains] using hfree, .inl rfl⟩
  | region l n type es =>
    simp only [placeholder?, Option.ite_none_left_eq_some, Option.some.injEq, Prod.mk.injEq] at h
    obtain ⟨hfree, rfl, rfl⟩ := h
    exact ⟨rfl, by simpa [SymbolTable.contains] using hfree, .inr rfl⟩
  | _ => cases h

theorem placeholder?_of_taken {name : String} {symbol : Symbol} (hname : s.lateName? = some name)
    (htaken : a.symbols.get? name = some symbol) : a.placeholder? s = none := by
  cases s with
  | constant | region =>
    obtain rfl := Option.some.inj hname
    simp [placeholder?, SymbolTable.contains, htaken]
  | _ => rfl

theorem Failure.growth_eq {g : Growth} (h : Failure a s fault g) : g = { entries := (a.placeholder? s).toList } := by
  cases h with
  | taken hname htaken => rw [placeholder?_of_taken hname htaken]; rfl
  | constant hfree | region hfree => simp [placeholder?, SymbolTable.contains, hfree]
  | embedding => rfl
  | nameless hname => cases s <;> first | rfl | cases hname

/-- A statement that fails changes nothing but the journal and, by the entry for its name, the table. -/
theorem process_failed (h : process env pending s a = .error (.fault fault) b) :
    b = { a with symbols := ⟨a.symbols.entries ++ (a.placeholder? s).toList⟩, journal := b.journal } := by
  obtain ⟨g, hg, hquiet⟩ : Fails a s fault b := (process_leads env pending s a).at_error h
  rw [hg.growth_eq] at hquiet
  simpa [grow] using hquiet.eq

/-! ## The pass behind a failure -/

/-- A fault can only be kept from being recorded by the limit. -/
theorem limit_of_report {j k : Journal} {e : Abort} (h : Journal.report fault j = .error e k) :
    ∃ exceeded, e = .limit exceeded := by
  unfold Journal.report Journal.recording at h
  split at h
  · cases h
  · cases h
    exact ⟨_, rfl⟩

/-- When a statement of the second pass fails, memory and records are as before it. The table has at most one entry
more, the one for the name of the statement if that was free: a constant of value zero, or a region without bytes at the
end of the memory. A fatal fault ends the pass, and so does a fault that is one too many; otherwise the fault is
recorded and all statements behind are processed from there. -/
theorem generate_of_failure {settings : AssemblySettings} {program : Program}
    (hprogram : program.statements = done ++ s :: rest)
    (hdone : processAll settings.surroundings (declarations program.statements) done start = .ok () a)
    (hs : process settings.surroundings (declarations program.statements) s a = .error (.fault fault) b) :
    b.memory = a.memory ∧ b.records = a.records ∧
      b.symbols.entries = a.symbols.entries ++ (a.placeholder? s).toList ∧
      (∀ name symbol, a.placeholder? s = some (name, symbol) → s.lateName? = some name ∧ a.symbols.get? name = none ∧
        (symbol = ⟨s.location, .constant 0⟩ ∨ symbol = ⟨s.location, .region a.memory.length 0⟩)) ∧
      (fault.isFatal = true → generate settings program start = .error (.fatal fault) b) ∧
      (fault.isFatal = false →
        (∀ j, Journal.report fault b.journal = .ok () j →
          generate settings program start = (do
            processAll settings.surroundings (declarations program.statements) rest
            conclude) { b with journal := j }) ∧
        ∀ e j, Journal.report fault b.journal = .error e j →
          (∃ exceeded, e = .limit exceeded) ∧ generate settings program start = .error e { b with journal := j }) := by
  have hfailed := process_failed hs
  -- The statements in front have led to the state in which this one is processed.
  have hpass : generate settings program start = (do
      attempt (process settings.surroundings (declarations program.statements) s)
      processAll settings.surroundings (declarations program.statements) rest
      conclude) a := by
    have hbehind := Call.processAll_append hdone (s :: rest)
    rw [← hprogram] at hbehind
    rw [generate_eq, bind_of_eq hbehind, processAll, bind_assoc]
  refine ⟨by rw [hfailed], by rw [hfailed], by rw [hfailed], fun _ _ => placeholder?_eq_some, fun hfatal => ?_,
    fun hfatal => ⟨fun j hreport => ?_, fun e j hreport => ⟨limit_of_report hreport, ?_⟩⟩⟩
  · rw [hpass, bind_of_error (attempt_of_fatal hs hfatal)]
  · rw [hpass, bind_of_eq (attempt_of_fault hs hfatal), bind_of_ok (reporting_of_ok hreport)]
  · rw [hpass, bind_of_eq (attempt_of_fault hs hfatal), bind_of_error (reporting_of_error hreport)]

/-- A region whose second initializer has no value, and behind it an instruction with the size of the region. -/
theorem generate_of_failure_region :
    let settings : AssemblySettings := ⟨⟨{}, []⟩, "entry"⟩
    let region : Statement := .region none "a" .byte [.integer none 1, .name none "b"]
    let program : Program := ⟨[region, .instruction none "psh" (some (.sizeof none (.name none "a")))], "a.avm"⟩
    ∃ fault b j,
      process settings.surroundings (declarations program.statements) region {} =
        .error (.fault fault) b ∧
      fault.isFatal = false ∧ b.memory = [] ∧ b.records = [] ∧ b.symbols.entries = [("a", ⟨none, .region 0 0⟩)] ∧
      Journal.report fault b.journal = .ok () j ∧
      (endState (generate settings program) {}).records = [⟨0x10, 0⟩] := by
  intro settings region program
  have hdone : processAll settings.surroundings (declarations program.statements) [] {} = .ok () {} := rfl
  have hregion : process settings.surroundings (declarations program.statements) region {} =
      .error (.fault _) _ := rfl
  obtain ⟨hmemory, hrecords, hsymbols, -, -, hnext⟩ := generate_of_failure rfl hdone hregion
  have hgenerate := (hnext rfl).1 _ rfl
  refine ⟨_, _, _, hregion, rfl, hmemory, hrecords, hsymbols, rfl, ?_⟩
  rw [endState, hgenerate]
  rfl

end Assembly

end AvmAssembler
