import AvmAssembler.Proofs.Assembly.Layout

/-! # Redefinitions

A name that is declared again is reported with a note at a declaration before. In the first pass the constants and
regions that are still to be bound are asked before the labels that are bound already, so between two labels of a name
it is a constant or a region that is noted; in all other cases it is the earliest declaration.
-/

namespace AvmAssembler

/-! ## Declarations -/

namespace Statement

variable {name other : String} {s d : Statement} {done rest ss : List Statement}

def first? (name : String) (ss : List Statement) : Option Statement :=
  ss.find? fun s => s.declared? = some name

def firstLate? (name : String) (ss : List Statement) : Option Statement :=
  ss.find? fun s => s.lateName? = some name

def firstLabel? (name : String) (ss : List Statement) : Option Statement :=
  (first? name ss).filter fun s => s.lateName?.isNone

theorem declared?_of_lateName? (h : s.lateName? = some name) : s.declared? = some name := by
  cases s <;> first | exact h | cases h

theorem lateName?_eq (h : s.declared? = some name) : s.lateName? = none ∨ s.lateName? = some name := by
  cases s <;> first | exact .inl rfl | exact .inr h

@[simp] theorem firstLate?_nil (name : String) : firstLate? name [] = none := rfl

theorem first?_snoc (name : String) (done : List Statement) (s : Statement) :
    first? name (done ++ [s]) = (first? name done).or (if s.declared? = some name then some s else none) := by
  simp [first?, List.find?_append, List.find?_singleton]

theorem firstLate?_snoc (name : String) (done : List Statement) (s : Statement) :
    firstLate? name (done ++ [s]) = (firstLate? name done).or (if s.lateName? = some name then some s else none) := by
  simp [firstLate?, List.find?_append, List.find?_singleton]

theorem exists_first?_of_firstLate? (h : firstLate? name ss = some d) : ∃ s, first? name ss = some s := by
  refine Option.isSome_iff_exists.1 (List.find?_isSome.2 ⟨d, List.mem_of_find?_eq_some h, ?_⟩)
  have hname := List.find?_some h
  simp only [decide_eq_true_eq] at hname
  simpa using declared?_of_lateName? hname

/-- If the first declaration is no label, it is the first constant or region. -/
theorem firstLate?_of_first? (h : first? name ss = some s) (hlate : s.lateName? ≠ none) :
    firstLate? name ss = some s := by
  obtain ⟨hname, before, after, heq, hbefore⟩ := List.find?_eq_some_iff_append.1 h
  have hname' : s.lateName? = some name := (lateName?_eq (by simpa using hname)).resolve_left hlate
  refine List.find?_eq_some_iff_append.2 ⟨by simpa using hname', before, after, heq, fun d hd => ?_⟩
  have hne : d.declared? ≠ some name := by simpa using hbefore d hd
  simpa using fun hd => hne (declared?_of_lateName? hd)

theorem first?_append (h : first? name done = some s) (rest : List Statement) :
    first? name (done ++ rest) = some s := by
  rw [first?] at h ⊢
  rw [List.find?_append, h, Option.some_or]

theorem firstLabel?_eq_some : firstLabel? name ss = some s ↔ first? name ss = some s ∧ s.lateName? = none := by
  simp [firstLabel?, Option.filter_eq_some_iff]

theorem first?_eq_none (hlabel : firstLabel? name ss = none) (hlate : firstLate? name ss = none) :
    first? name ss = none := by
  cases hfirst : first? name ss with
  | none => rfl
  | some s =>
    by_cases hname : s.lateName? = none
    · rw [firstLabel?_eq_some.2 ⟨hfirst, hname⟩] at hlabel
      cases hlabel
    · rw [firstLate?_of_first? hfirst hname] at hlate
      cases hlate

/-- Only a new name of a label changes what is declared first as a label. -/
theorem firstLabel?_snoc_of_kept (h : s.declared? = some name → s.lateName? = none → first? name done ≠ none) :
    firstLabel? name (done ++ [s]) = firstLabel? name done := by
  rw [firstLabel?, firstLabel?, first?_snoc]
  cases hfirst : first? name done with
  | some d => rw [Option.some_or]
  | none =>
    split
    · rename_i hname
      have hlate : s.lateName? ≠ none := fun hlate => h hname hlate hfirst
      simpa [Option.isNone_iff_eq_none] using hlate
    · rfl

/-- The declaration before a statement that the statement redefines, as the passes see it: at a label, the constants and
regions go before the labels. -/
def cited? (name : String) (before : List Statement) (s : Statement) : Option Statement :=
  if s.lateName? = none then (firstLate? name before).or (first? name before) else first? name before

/-- What is cited is the earliest declaration, except between two labels. -/
theorem first?_of_cited? (h : cited? name done s = some d) :
    ∃ earliest, first? name done = some earliest ∧
      (d ≠ earliest → s.lateName? = none ∧ earliest.lateName? = none ∧ firstLate? name done = some d) := by
  unfold cited? at h
  split at h
  · rename_i hlabel
    rcases Option.or_eq_some_iff.1 h with hlate | ⟨-, hfirst⟩
    · obtain ⟨earliest, hearliest⟩ := exists_first?_of_firstLate? hlate
      refine ⟨earliest, hearliest, fun hne => ⟨hlabel, ?_, hlate⟩⟩
      by_contra hearlier
      rw [firstLate?_of_first? hearliest hearlier] at hlate
      exact hne (Option.some.inj hlate).symm
    · exact ⟨d, hfirst, fun hne => absurd rfl hne⟩
  · exact ⟨d, h, fun hne => absurd rfl hne⟩

theorem cited?_of_label (hlabel : s.lateName? = none)
    (h : (firstLate? name done).or (firstLabel? name done) = some d) : cited? name done s = some d := by
  rw [cited?, if_pos hlabel]
  rcases Option.or_eq_some_iff.1 h with hlate | ⟨hlate, hfirst⟩
  · rw [hlate, Option.some_or]
  · rw [hlate, Option.none_or, (firstLabel?_eq_some.1 hfirst).1]

/-- A constant or region finds a label of its name bound wherever the label stands, but the label stands before it if it
is declared first. -/
theorem cited?_of_late (hname : s.lateName? = some name)
    (h : (firstLabel? name (done ++ s :: rest)).or (firstLate? name done) = some d) :
    cited? name done s = some d := by
  have hlate : s.lateName? ≠ none := by simp [hname]
  rw [cited?, if_neg hlate]
  rcases Option.or_eq_some_iff.1 h with hlabel | ⟨hnone, hdone⟩
  -- The statement itself is no label, so a label that comes first comes before it.
  · obtain ⟨hfirst, hlabel⟩ := firstLabel?_eq_some.1 hlabel
    rw [first?, List.find?_append, List.find?_cons_of_pos (by simpa using declared?_of_lateName? hname)] at hfirst
    rcases Option.or_eq_some_iff.1 hfirst with hbefore | ⟨-, hself⟩
    · exact hbefore
    · cases hself
      exact absurd hlabel hlate
  · obtain ⟨earliest, hearliest⟩ := exists_first?_of_firstLate? hdone
    by_cases hlabel : earliest.lateName? = none
    · rw [firstLabel?_eq_some.2 ⟨first?_append hearliest _, hlabel⟩] at hnone
      cases hnone
    · rw [hearliest, ← hdone, firstLate?_of_first? hearliest hlabel]

/-- At the place one of the statements declares the name again, and is held against the given declaration. -/
def Redefines (ss : List Statement) (name : String) (l : Option Location) (d : Statement) : Prop :=
  ∃ before s after, ss = before ++ s :: after ∧ s.declared? = some name ∧ s.location = l ∧ cited? name before s = some d

end Statement

/-- The report can be one of compiling the statements: a fault is that of a statement whose name is free, or it is a
redefinition. -/
def Report.IsOfCompiling (ss : List Statement) : Report → Prop
  | .fault f => f.cause.IsOfStatement ∨
    ∃ name d, f.cause = .redefinition name d.location ∧ Statement.Redefines ss name f.location d
  | _ => True

open Statement Diagnostics

namespace Assembly

variable {env : Surroundings} {name : String} {s d : Statement} {done rest ss : List Statement} {a b : Assembly}

theorem declarations_snoc (done : List Statement) (s : Statement) :
    declarations (done ++ [s]) =
      match s.lateName? with
      | some name =>
        if ((declarations done).lookup name).isSome then declarations done
        else declarations done ++ [(name, s.location)]
      | none => declarations done :=
  List.foldl_append

/-- The declarations tell where the first constant or region of a name is. -/
theorem lookup_declarations (name : String) (ss : List Statement) :
    (declarations ss).lookup name = (firstLate? name ss).map Statement.location := by
  induction ss using List.reverseRecOn with
  | nil => rfl
  | append_singleton done s ih =>
    rw [declarations_snoc, firstLate?_snoc]
    cases hlate : s.lateName? with
    | none => simp [ih]
    | some other =>
      by_cases hother : other = name
      · subst hother
        cases hfirst : firstLate? other done with
        | some d => simp [ih, hfirst]
        | none => simp [ih, hfirst, lookup_snoc]
      · simp only [hother, Option.some.injEq, if_false, Option.or_none, ← ih]
        split
        · rfl
        · rw [lookup_snoc, if_neg (Ne.symm hother), Option.or_none]

/-! ## Where names are bound -/

/-- A name is bound at its first declaration among the labelled statements if that is a label, and otherwise at the
first constant or region among the statements that are done. -/
def Placed (labelled done : List Statement) (a : Assembly) : Prop :=
  ∀ name, (a.symbols.get? name).map Symbol.location =
    ((firstLabel? name labelled).or (firstLate? name done)).map Statement.location

theorem placed_empty (j : Journal) : Placed [] [] { journal := j } := fun _ => rfl

namespace Placed

theorem eq_none (h : Placed ss done a) (hfree : a.symbols.get? name = none) :
    firstLabel? name ss = none ∧ firstLate? name done = none := by
  have hname := h name
  rw [hfree, Option.map_none, eq_comm, Option.map_eq_none_iff, Option.or_eq_none_iff] at hname
  exact hname

theorem exists_of_get? (h : Placed ss done a) {symbol : Symbol} (hget : a.symbols.get? name = some symbol) :
    ∃ d, (firstLabel? name ss).or (firstLate? name done) = some d ∧ d.location = symbol.location := by
  have hname := h name
  rw [hget, Option.map_some, eq_comm] at hname
  exact Option.map_eq_some_iff.1 hname

theorem of_symbols (h : Placed ss done a) (hsymbols : b.symbols = a.symbols) : Placed ss done b := by
  rw [Placed, hsymbols]
  exact h

/-- In the first pass, a statement that is no new label leaves the names as they are. -/
theorem label_kept (h : Placed done [] a)
    (hkept : ∀ name, s.declared? = some name → s.lateName? = none → first? name done ≠ none) :
    Placed (done ++ [s]) [] a := by
  intro name
  rw [h name, firstLabel?_snoc_of_kept (hkept name)]

theorem label_bound (h : Placed done [] a) {l : Option Location} {meaning : Meaning}
    (hnew : first? name done = none) :
    Placed (done ++ [.label l name]) [] (a.grow { entries := [(name, ⟨l, meaning⟩)] }) := by
  intro other
  rw [get?_grow_name]
  by_cases hother : other = name
  · subst hother
    have hlabel : firstLabel? other done = none := by rw [firstLabel?, hnew, Option.filter_none]
    have hfree : a.symbols.get? other = none := by
      have hname := h other
      rw [hlabel] at hname
      simpa using hname
    have hbound : firstLabel? other (done ++ [.label l other]) = some (.label l other) := by
      refine firstLabel?_eq_some.2 ⟨?_, rfl⟩
      rw [first?_snoc, hnew, Option.none_or]
      exact if_pos rfl
    simp [hfree, hbound, Statement.location]
  · have hne : Statement.declared? (.label l name) ≠ some other := by simpa [declared?] using Ne.symm hother
    rw [if_neg hother, Option.or_none, h other, firstLabel?_snoc_of_kept fun hname => absurd hname hne]

/-- In the second pass, a statement that declares no new name leaves the names as they are. -/
theorem late_kept (h : Placed ss done a) (hkept : ∀ name, s.lateName? = some name → a.symbols.get? name ≠ none) :
    Placed ss (done ++ [s]) a := by
  intro name
  rw [h name, firstLate?_snoc]
  by_cases hname : s.lateName? = some name
  · obtain ⟨symbol, hget⟩ := Option.ne_none_iff_exists'.1 (hkept name hname)
    obtain ⟨d, hd, -⟩ := h.exists_of_get? hget
    rw [← Option.or_assoc, hd, Option.some_or]
  · rw [if_neg hname, Option.or_none]

theorem late_bound (h : Placed ss done a) {meaning : Meaning} {bytes : List UInt8}
    (hname : s.lateName? = some name) (hfree : a.symbols.get? name = none) :
    Placed ss (done ++ [s]) (a.grow { entries := [(name, ⟨s.location, meaning⟩)], bytes := bytes }) := by
  intro other
  rw [get?_grow_name, firstLate?_snoc]
  by_cases hother : other = name
  · subst hother
    obtain ⟨hlabel, hlate⟩ := h.eq_none hfree
    simp [hfree, hlabel, hlate, hname]
  · have hne : s.lateName? ≠ some other := by
      rw [hname]
      simpa using Ne.symm hother
    rw [if_neg hother, Option.or_none, h other, if_neg hne, Option.or_none]

end Placed

/-! ## First pass -/

/-- Constants, regions and foreign nodes are passed over; their names are remembered. -/
theorem bindLabels_other (address : Nat) (rest : List Statement) (hlabel : ∀ l name, s ≠ .label l name)
    (hinstruction : ∀ l name argument, s ≠ .instruction l name argument) :
    bindLabels address (declarations done) (s :: rest) = bindLabels address (declarations (done ++ [s])) rest := by
  rw [declarations_snoc]
  cases s with
  | label l name => exact absurd rfl (hlabel l name)
  | instruction l name argument => exact absurd rfl (hinstruction l name argument)
  | constant l name e | region l name type es | embedding l name path =>
    rw [bindLabels]
    · simp only [lateName?]
      split <;> rfl
    all_goals simp
  | foreign l kind =>
    rw [bindLabels]
    · rfl
    all_goals simp

/-- What was recorded in between can be recorded when compiling the statements. -/
def Recorded (ss : List Statement) (a b : Assembly) : Prop :=
  GrownBy (Report.IsOfCompiling ss) a.journal.diagnostics b.journal.diagnostics

/-- What stops compiling the statements and is left to be dealt with: a fatal fault, or the search for the file of an
embedding that is cut short. -/
def Unhandled (env : Surroundings) (ss : List Statement) : Abort → Prop
  | .fatal _ => True
  | .search e => ∃ s ∈ ss, Unsearched env s e
  | _ => False

def Stopped (env : Surroundings) (ss : List Statement) (a : Assembly) (e : Abort) (b : Assembly) : Prop :=
  Aborted (Report.IsOfCompiling ss) (Unhandled env ss) a.journal.diagnostics b.journal.diagnostics e

def Labelled (ss : List Statement) (a b : Assembly) : Prop :=
  Placed ss [] b ∧ Recorded ss a b

theorem Labelled.after {c : Assembly} (h : Recorded ss a b) (h' : Labelled ss b c) : Labelled ss a c :=
  ⟨h'.1, h.trans h'.2⟩

theorem taken_leads {α : Type} {next : Assembling α} {l : Option Location} (hss : ss = done ++ .label l name :: rest)
    (h : Placed done [] a) (hd : (firstLate? name done).or (firstLabel? name done) = some d)
    (hnext : ∀ b, Placed (done ++ [.label l name]) [] b → Leads next b (fun _ => Labelled ss b) (Stopped env ss b)) :
    Leads (do reporting (Journal.report ⟨.redefinition name d.location, l⟩); next) a (fun _ => Labelled ss a)
      (Stopped env ss a) := by
  have hcited : cited? name done (.label l name) = some d := cited?_of_label rfl hd
  have hreport : Report.IsOfCompiling ss (.fault ⟨.redefinition name d.location, l⟩) :=
    .inr ⟨name, d, rfl, done, _, rest, hss, rfl, rfl, hcited⟩
  have hkept : Placed (done ++ [.label l name]) [] a := by
    obtain ⟨earliest, hearliest, -⟩ := first?_of_cited? hcited
    refine h.label_kept ?_
    rintro other ⟨⟩ -
    simp [hearliest]
  refine Leads.of_bind (report_leads _ a) ?_ ?_
  · rintro _ b ⟨hb, hgrown⟩
    have hrecorded : Recorded ss a b := .single hgrown hreport
    exact (hnext b (hkept.of_symbols (by rw [hb]))).mono (fun _ _ h => h.after hrecorded)
      fun _ _ h => Aborted.after hrecorded h
  · rintro e b ⟨-, hlast⟩
    exact hlast.aborted.mono (fun r hr => hr ▸ hreport) fun _ h => h.elim

/-- The first pass binds the names that are first declared as labels. -/
theorem bindLabels_labelled (hss : ss = done ++ rest) (address : Nat) (h : Placed done [] a) :
    Leads (bindLabels address (declarations done) rest) a (fun _ => Labelled ss a) (Stopped env ss a) := by
  -- What is done grows as what is left shrinks, and the names stay placed by what is done.
  induction rest generalizing done address a with
  | nil =>
    rw [List.append_nil] at hss
    exact Leads.of_pure ⟨hss ▸ h, .refl _⟩
  | cons s rest ih =>
    have hss' : ss = done ++ [s] ++ rest := by simp [hss]
    cases s with
    | label l name =>
      have hnext : ∀ b, Placed (done ++ [.label l name]) [] b →
          Leads (bindLabels address (declarations done) rest) b (fun _ => Labelled ss b) (Stopped env ss b) := by
        have hsame : declarations (done ++ [.label l name]) = declarations done := declarations_snoc _ _
        exact fun b hb => hsame ▸ ih hss' address hb
      have hlookup := lookup_declarations name done
      rw [bindLabels]
      split
      · rename_i first hfirst
        obtain ⟨d, hd, rfl⟩ := Option.map_eq_some_iff.1 (hlookup.symm.trans hfirst)
        exact taken_leads hss h (by rw [hd, Option.some_or]) hnext
      · rename_i hnone
        have hlate : firstLate? name done = none := Option.map_eq_none_iff.1 (hlookup.symm.trans hnone)
        apply Leads.of_get
        split
        · rename_i symbols hdefine
          obtain ⟨hfree, rfl⟩ := SymbolTable.define_eq_ok.1 hdefine
          have hnew : first? name done = none := first?_eq_none (h.eq_none hfree).1 hlate
          exact Leads.of_modify_bind (hnext _ ((h.label_bound hnew).of_symbols rfl))
        · rename_i fault hdefine
          obtain ⟨symbol, hget, rfl⟩ := SymbolTable.define_eq_error.1 hdefine
          obtain ⟨d, hd, hlocation⟩ := h.exists_of_get? hget
          rw [← hlocation]
          have hlabel : firstLabel? name done = some d := by simpa using hd
          exact taken_leads hss h (by rw [hlate, hlabel, Option.none_or]) hnext
    | instruction l name argument =>
      have hsame : declarations (done ++ [.instruction l name argument]) = declarations done := declarations_snoc _ _
      rw [bindLabels, ← hsame]
      exact ih hss' (address + 1) (h.label_kept fun _ hname => by cases hname)
    | constant l name e | region l name type es | embedding l name path =>
      rw [bindLabels_other address rest (by simp) (by simp)]
      exact ih hss' address (h.label_kept fun _ _ hlabel => by cases hlabel)
    | foreign l kind =>
      rw [bindLabels_other address rest (by simp) (by simp)]
      exact ih hss' address (h.label_kept fun _ hname => by cases hname)

theorem Quiet.recorded (h : Quiet a b) (ss : List Statement) : Recorded ss a b :=
  h.warned.mono fun r hr => by cases r <;> first | exact hr.elim | trivial

theorem resolve_labelled (settings : AssemblySettings) (program : Program) (j : Journal) :
    Leads (resolve settings program) { journal := j } (fun _ => Labelled program.statements { journal := j })
      (Stopped settings.surroundings program.statements { journal := j }) := by
  refine Leads.of_bind (bindLabels_labelled rfl 0 (placed_empty j)) ?_ fun _ _ h => h
  rintro count b ⟨hplaced, hrecorded⟩
  apply Leads.of_get
  split
  · apply Leads.of_modify_bind
    apply Leads.of_get
    refine Leads.of_bind (note_leads _ _) ?_ fun _ _ h => h.elim
    intro _ c hc
    exact Leads.of_get (Leads.of_pure ⟨hplaced.of_symbols hc.symbols, hrecorded.trans (hc.recorded _)⟩)
  · refine Leads.of_bind (missingEntry_leads settings.entryLabel b) ?_ ?_
    · rintro _ c ⟨hc, hgrown⟩
      exact Leads.of_pure ⟨hplaced.of_symbols (by rw [hc]), hrecorded.trans (.single hgrown trivial)⟩
    · rintro e c ⟨-, hlast⟩
      exact (hlast.aborted.mono (fun r hr => hr ▸ trivial) fun _ h => h.elim).after hrecorded

/-! ## Second pass -/

section

variable {fault : Fault} {g : Growth}

theorem Effect.placed (h : Effect env a s g) (hplaced : Placed ss done a) : Placed ss (done ++ [s]) (a.grow g) := by
  cases h with
  | label | nullary | unary =>
    refine Placed.of_symbols (hplaced.late_kept fun _ hname => by cases hname) ?_
    simp [grow]
  | constant hfree | region hfree | embedding hfree => exact hplaced.late_bound rfl hfree

theorem Failure.placed (h : Failure a s fault g) (hfatal : fault.isFatal = false) (hplaced : Placed ss done a) :
    Placed ss (done ++ [s]) (a.grow g) := by
  cases h with
  | taken hname hget =>
    rw [grow_nothing]
    refine hplaced.late_kept fun other hother => ?_
    obtain rfl := Option.some.inj (hname.symm.trans hother)
    simp [hget]
  | constant hfree | region hfree => exact hplaced.late_bound rfl hfree
  | embedding hfatal' => simp [hfatal'] at hfatal
  | nameless hname =>
    rw [grow_nothing]
    exact hplaced.late_kept fun other hother => by simp [hname] at hother

/-- A statement whose name is taken is held against what has the name, and otherwise fails by itself. -/
theorem Failure.isOfCompiling (h : Failure a s fault g) (hss : ss = done ++ s :: rest) (hplaced : Placed ss done a)
    (hlaid : a.LaidOut) : (Report.fault fault).IsOfCompiling ss := by
  cases h with
  | taken hname hget =>
    obtain ⟨d, hd, hlocation⟩ := hplaced.exists_of_get? hget
    subst hss
    exact .inr ⟨_, d, by rw [hlocation], done, s, rest, rfl, declared?_of_lateName? hname, rfl, cited?_of_late hname hd⟩
  | constant _ hfault | region _ hfault | embedding _ hfault | nameless _ hfault => exact .inl (hfault hlaid.hasSizes)

end

section

variable {pending : Pending}

/-- Whatever becomes of a statement that does not end the pass, its name is bound afterwards. -/
theorem attempt_placed (hplaced : Placed ss done a) (s : Statement) :
    Leads (attempt (process env pending s)) a (fun _ b => Placed ss (done ++ [s]) b) (fun _ _ => True) := by
  refine (attempt_leads (process_leads env pending s a)).mono ?_ fun _ _ _ => trivial
  -- A statement that fails keeps the names placed only because its fault is not fatal: a fatal one leaves its name free,
  -- but ends the pass.
  rintro _ b (⟨g, hg, hb⟩ | ⟨fault, b', ⟨g, hg, hquiet⟩, hfatal, hb, -⟩)
  · exact (hg.placed hplaced).of_symbols hb.symbols
  · exact (hg.placed hfatal hplaced).of_symbols (by rw [hb, hquiet.symbols])

theorem processAll_placed (hplaced : Placed ss done a) (rest : List Statement) :
    Leads (processAll env pending rest) a (fun _ b => Placed ss (done ++ rest) b) (fun _ _ => True) := by
  induction rest generalizing done a with
  | nil => exact Leads.of_pure (by rwa [List.append_nil])
  | cons s rest ih =>
    refine Leads.of_bind (attempt_placed hplaced s) ?_ fun _ _ h => h
    intro _ b hb
    simpa using ih hb

theorem attempt_recorded (hss : ss = done ++ s :: rest) (hplaced : Placed ss done a) (hlaid : a.LaidOut) :
    Leads (attempt (process env pending s)) a (fun _ b => Recorded ss a b ∧ b.LaidOut) (Stopped env ss a) := by
  refine (attempt_leads (process_leads env pending s a)).mono ?_ ?_
  · rintro _ b (⟨g, hg, hb⟩ | ⟨fault, b', hfails, -, hb, hgrown⟩)
    · have hrecorded : Recorded ss a b := hb.recorded ss
      exact ⟨hrecorded, hlaid.step (.of_effect hg hb)⟩
    · have hsteps : Steps a b := Fails.steps hfails hb
      obtain ⟨g, hg, hquiet⟩ := hfails
      have hreport : (Report.fault fault).IsOfCompiling ss := hg.isOfCompiling hss hplaced hlaid
      exact ⟨(hquiet.recorded ss).trans (.single hgrown hreport), hlaid.steps hsteps⟩
  · rintro e b (⟨fault, b', ⟨g, hg, hquiet⟩, hb, hlast⟩ | ⟨e', rfl, rfl, hsearch⟩)
    · have hreport : (Report.fault fault).IsOfCompiling ss := hg.isOfCompiling hss hplaced hlaid
      exact (hlast.aborted.mono (fun r hr => hr ▸ hreport) fun _ h => h ▸ trivial).after (hquiet.recorded ss)
    · exact ⟨⟨s, by simp [hss], hsearch⟩, .refl _⟩

theorem processAll_recorded (hss : ss = done ++ rest) (hplaced : Placed ss done a) (hlaid : a.LaidOut) :
    Leads (processAll env pending rest) a (fun _ => Recorded ss a) (Stopped env ss a) := by
  induction rest generalizing done a with
  | nil => exact Leads.of_pure (.refl _)
  | cons s rest ih =>
    refine Leads.of_bind ((attempt_recorded hss hplaced hlaid).and (attempt_placed hplaced s)) ?_ fun _ _ h => h.1
    rintro _ b ⟨⟨hrecorded, hlaid'⟩, hplaced'⟩
    have hss' : ss = done ++ [s] ++ rest := by simp [hss]
    exact (ih hss' hplaced' hlaid').mono (fun _ _ h => hrecorded.trans h) fun _ _ h => h.after hrecorded

end

/-- All that compiling records are warnings, the lack of the entry label, faults of statements by themselves, and
redefinitions. -/
theorem compile_recorded (settings : AssemblySettings) (program : Program) (j : Journal) :
    Leads (compile settings program) { journal := j } (fun _ => Recorded program.statements { journal := j })
      (Stopped settings.surroundings program.statements { journal := j }) := by
  have hresolve := (resolve_labelled settings program j).and (resolve_leads settings program { journal := j })
  refine Leads.of_bind hresolve ?_ fun _ _ h => h.1
  rintro answer b ⟨⟨hplaced, hrecorded⟩, hsteps, -, -⟩
  cases answer with
  | false => exact Leads.of_pure hrecorded
  | true =>
    have hlaid : b.LaidOut := (laidOut_empty j).steps hsteps
    have hprocess : Leads (processAll settings.surroundings (declarations program.statements) program.statements) b
        (fun _ => Recorded program.statements b) (Stopped settings.surroundings program.statements b) :=
      processAll_recorded (List.nil_append program.statements).symm hplaced hlaid
    simp only [if_true]
    rw [generate_eq]
    refine Leads.of_bind hprocess ?_ fun _ _ h => h.after hrecorded
    intro _ c hc
    refine (conclude_leads c).mono ?_ fun _ _ h => h.elim
    exact fun _ d hd => hrecorded.trans (GrownBy.trans hc (hd.1.recorded _))

theorem redefines_of_message {r : Report} (h : r.IsOfCompiling ss) (herror : r.head.severity = .error)
    (hmessage : r.head.message = s!"redefinition of '{name}'") :
    ∃ d, Redefines ss name r.head.location d ∧
      r.notes = d.location.toList.map fun l => ⟨.note, s!"'{name}' previously defined here", some l⟩ := by
  cases r with
  | warning message l => cases herror
  | missingEntry label => simp [Report.head, toString_text, String.ext_iff] at hmessage
  | fault f =>
    obtain ⟨cause, l⟩ := f
    rcases h with hstatement | ⟨other, d, hcause, hredefines⟩
    · exact absurd hmessage (hstatement.message_ne_redefinition name)
    · obtain rfl : cause = .redefinition other d.location := hcause
      have hname : s!"redefinition of '{other}'" = s!"redefinition of '{name}'" := hmessage
      obtain rfl : other = name := by simpa [toString_text] using hname
      refine ⟨d, hredefines, ?_⟩
      cases hlocation : d.location <;> simp [Report.notes, Cause.notes, Fault.shownHint, Cause.hint]

/-- Whatever program is compiled from the start, and however compiling ends: every recorded redefinition of a name is at
a statement that declares it again, and has a single note, at a declaration of the name before. This is the earliest
declaration, except between two labels of the name: there it is the first constant or region before the second label, if
there is one. Only the limit of diagnostics can cut off the note, and then nothing follows. -/
theorem compile_redefinitions (settings : AssemblySettings) (program : Program) (j : Journal) :
    let ending := (endState (compile settings program) { journal := j }).journal.diagnostics
    ∃ recorded, ending.entries = j.diagnostics.entries ++ recorded ∧
      ∀ e notes name, (e, notes) ∈ Diagnostics.explained recorded → e.severity = .error →
        e.message = s!"redefinition of '{name}'" →
        ∃ before s after earliest d, program.statements = before ++ s :: after ∧
          s.declared? = some name ∧ s.location = e.location ∧
          first? name program.statements = some earliest ∧ cited? name before s = some d ∧
          (d ≠ earliest → s.lateName? = none ∧ earliest.lateName? = none ∧ firstLate? name before = some d) ∧
          (notes = d.location.toList.map (fun l => ⟨.note, s!"'{name}' previously defined here", some l⟩) ∨
            notes = [] ∧ ending.truncated = true ∧ [e] <:+ recorded) := by
  intro ending
  have hexplains : Leads (compile settings program) { journal := j }
      (fun _ b => Explains (Report.IsOfCompiling program.statements) j.diagnostics b.journal.diagnostics)
      (fun _ b => Explains (Report.IsOfCompiling program.statements) j.diagnostics b.journal.diagnostics) :=
    (compile_recorded settings program j).mono (fun _ _ h => h.explains) fun _ _ h => h.explains
  replace hexplains : Explains (Report.IsOfCompiling program.statements) j.diagnostics ending :=
    Call.endState_of_leads hexplains
  obtain ⟨recorded, hentries, hall⟩ := hexplains
  refine ⟨recorded, hentries, fun e notes name hmem herror hmessage => ?_⟩
  obtain ⟨r, hr, rfl, hnotes⟩ := hall e notes hmem
  obtain ⟨d, ⟨before, s, after, hss, hdeclares, hlocation, hcited⟩, hreport⟩ := redefines_of_message hr herror hmessage
  obtain ⟨earliest, hearliest, hexcept⟩ := first?_of_cited? hcited
  have hfirst : first? name program.statements = some earliest := hss ▸ first?_append hearliest _
  refine ⟨before, s, after, earliest, d, hss, hdeclares, hlocation, hfirst, hcited, hexcept, ?_⟩
  rcases hnotes with rfl | ⟨htruncated, hprefix, hne, hlast⟩
  · exact .inl hreport
  · have hnil : notes = [] := by
      rw [hreport] at hprefix hne
      cases hd : d.location with
      | none => simpa [hd] using hprefix
      | some l =>
        rw [hd] at hprefix hne
        rcases List.prefix_cons_iff.1 hprefix with rfl | ⟨more, rfl, hmore⟩
        · rfl
        · exact absurd (by rw [List.prefix_nil.1 hmore]; rfl) hne
    exact .inr ⟨hnil, htruncated, hnil ▸ hlast⟩

/-- A label, a constant and a label of one name: the second label is held against the constant, not against the first
label. -/
theorem redefinition_between_labels :
    let place : Int → Option Location := fun line => some { file := "main", line := line, column := 1 }
    let program : Program :=
      ⟨[.label (place 1) "entry", .label (place 2) "x", .constant (place 3) "x" (.integer (place 3) 1),
        .label (place 4) "x", .instruction (place 5) "hlt" none], "main"⟩
    (endState (compile { surroundings := ⟨{}, []⟩ } program) {}).journal.diagnostics.entries =
        [⟨.error, "redefinition of 'x'", place 4⟩, ⟨.note, "'x' previously defined here", place 3⟩] ∧
      (first? "x" program.statements).map Statement.location = some (place 2) := by
  decide +kernel

end Assembly

end AvmAssembler
