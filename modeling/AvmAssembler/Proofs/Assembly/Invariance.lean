import AvmAssembler.Proofs.Assembly.Declaration
import AvmAssembler.Proofs.Assembly.Renaming

/-! # Names do not matter

If a renaming keeps the names of a program and its entry label apart, the renamed program is compiled to the same image,
and its symbols are the renamed symbols in the same order. Suggestions for names that are not declared depend on the
names and count toward the limit of diagnostics, so one of the two runs may be stopped where the other goes on; but then
errors are recorded in both.
-/

namespace AvmAssembler

open Correspondence Diagnostics

variable {f : String → String} {N : Set String} {α β γ δ : Type}

namespace Assembly

/-! ## Passes side by side -/

def Exceeds (pass : Assembling α) (a : Assembly) : Prop :=
  ∃ e b, pass a = .error (.limit e) b

def Errs (pass : Assembling α) (a : Assembly) : Prop :=
  Leads pass a (fun _ b => 0 < b.errors) fun _ _ => True

def KeepsErrors (pass : Assembling α) : Prop :=
  ∀ a, Leads pass a (fun _ b => a.errors ≤ b.errors) fun _ _ => True

theorem Exceeds.bind {pass : Assembling α} {next : α → Assembling β} {a : Assembly} (h : Exceeds pass a) :
    Exceeds (pass >>= next) a := by
  obtain ⟨e, b, hpass⟩ := h
  exact ⟨e, b, bind_of_error hpass⟩

theorem Exceeds.of_bind {pass : Assembling α} {next : α → Assembling β} {a b : Assembly} {x : α}
    (hpass : pass a = .ok x b) (h : Exceeds (next x) b) : Exceeds (pass >>= next) a := by
  obtain ⟨e, c, hnext⟩ := h
  exact ⟨e, c, (bind_of_ok hpass).trans hnext⟩

theorem Exceeds.errs {pass : Assembling α} {a : Assembly} (h : Exceeds pass a) : Errs pass a := by
  obtain ⟨e, b, hpass⟩ := h
  exact Leads.of_error hpass trivial

theorem Errs.bind {pass : Assembling α} {next : α → Assembling β} {a : Assembly} (h : Errs pass a)
    (hnext : ∀ x, KeepsErrors (next x)) : Errs (pass >>= next) a := by
  refine Leads.of_bind h (fun x b hb => ?_) fun _ _ _ => trivial
  exact (hnext x b).mono (fun _ _ hle => Nat.lt_of_lt_of_le hb hle) fun _ _ _ => trivial

theorem KeepsErrors.bind {pass : Assembling α} {next : α → Assembling β} (h : KeepsErrors pass)
    (hnext : ∀ x, KeepsErrors (next x)) : KeepsErrors (pass >>= next) := by
  refine fun a => Leads.of_bind (h a) (fun x b hb => ?_) fun _ _ _ => trivial
  exact (hnext x b).mono (fun _ _ hle => hb.trans hle) fun _ _ _ => trivial

/-- The two passes end alike, or one of them is stopped by the limit of diagnostics; then errors are recorded in both. -/
def Parallels (f : String → String) (N : Set String) (value : α → β → Prop) (pass : Assembling α)
    (pass' : Assembling β) : Prop :=
  ∀ a a', Renamed f N a a' →
    (∃ x b y b', pass a = .ok x b ∧ pass' a' = .ok y b' ∧ value x y ∧ Renamed f N b b') ∨
    (∃ e b e' b', pass a = .error e b ∧ pass' a' = .error e' b' ∧ Renamed f N b b') ∨
    (Exceeds pass a ∨ Exceeds pass' a') ∧ Errs pass a ∧ Errs pass' a'

namespace Parallels

variable {value : α → β → Prop} {value' : γ → δ → Prop} {pass : Assembling α} {pass' : Assembling β}
  {next : α → Assembling γ} {next' : β → Assembling δ}

theorem pure {x : α} {y : β} (h : value x y) : Parallels f N value (pure x) (pure y) :=
  fun a a' haa' => .inl ⟨x, a, y, a', rfl, rfl, h, haa'⟩

theorem bind (h : Parallels f N value pass pass')
    (hnext : ∀ x y, value x y → Parallels f N value' (next x) (next' y)) (hkeep : ∀ x, KeepsErrors (next x))
    (hkeep' : ∀ y, KeepsErrors (next' y)) : Parallels f N value' (pass >>= next) (pass' >>= next') := by
  intro a a' haa'
  rcases h a a' haa' with ⟨x, b, y, b', hs, hs', hxy, hbb'⟩ | ⟨e, b, e', b', hs, hs', hbb'⟩ | ⟨hexceeds, herrs, herrs'⟩
  · rcases hnext x y hxy b b' hbb' with hboth | hboth | ⟨hexceeds, herrs, herrs'⟩
    · exact .inl (by simpa only [bind_of_ok hs, bind_of_ok hs'] using hboth)
    · exact .inr (.inl (by simpa only [bind_of_ok hs, bind_of_ok hs'] using hboth))
    · exact .inr (.inr ⟨hexceeds.imp (.of_bind hs) (.of_bind hs'), Leads.of_ok_bind hs herrs,
        Leads.of_ok_bind hs' herrs'⟩)
  · exact .inr (.inl ⟨e, b, e', b', bind_of_error hs, bind_of_error hs', hbb'⟩)
  · exact .inr (.inr ⟨hexceeds.imp Exceeds.bind Exceeds.bind, herrs.bind hkeep, herrs'.bind hkeep'⟩)

theorem get {next : Assembly → Assembling γ} {next' : Assembly → Assembling δ}
    (h : ∀ a a', Renamed f N a a' → Parallels f N value' (next a) (next' a')) :
    Parallels f N value' (MonadState.get >>= next) (MonadState.get >>= next') :=
  fun a a' haa' => h a a' haa' a a' haa'

end Parallels

theorem recording_cases {r : Report} (hr : r.isError = true) (a : Assembly) :
    (∃ j, reporting (Journal.recording (recordAll r.diagnostics)) a = .ok () { a with journal := j } ∧
        j.diagnostics.errorCount = a.errors + 1) ∨
      Exceeds (reporting (Journal.recording (recordAll r.diagnostics))) a := by
  have hreport := recordAll_report hr a.journal.diagnostics
  cases hs : recordAll r.diagnostics a.journal.diagnostics with
  | ok x ds =>
    have hcount := (hreport.at_ok hs).errorCount
    simp only [List.countP_singleton, hr, if_true] at hcount
    exact .inl ⟨{ a.journal with diagnostics := ds }, by simp only [reporting, Journal.recording, hs], hcount⟩
  | error e ds =>
    exact .inr ⟨e, { a with journal := { a.journal with diagnostics := ds } },
      by simp only [reporting, Journal.recording, hs]⟩

/-- Whatever the two reports say, each of them is one error more. -/
theorem recording_parallels {r s : Report} (hr : r.isError = true) (hr' : s.isError = true) :
    Parallels f N Eq (reporting (Journal.recording (recordAll r.diagnostics)))
      (reporting (Journal.recording (recordAll s.diagnostics))) := by
  intro a a' h
  have herrs {r : Report} (hr : r.isError = true) (a : Assembly) :
      Errs (reporting (Journal.recording (recordAll r.diagnostics))) a := by
    rcases recording_cases hr a with ⟨j, hs, hcount⟩ | hexceeds
    · refine Leads.of_ok hs ?_
      change 0 < j.diagnostics.errorCount
      omega
    · exact hexceeds.errs
  rcases recording_cases hr a with ⟨j, hs, hcount⟩ | hexceeds
  · rcases recording_cases hr' a' with ⟨j', hs', hcount'⟩ | hexceeds
    · refine .inl ⟨(), _, (), _, hs, hs', rfl, h.symbols, h.kept, h.entryPoint, h.memory, h.records, ?_⟩
      have herrors := h.errors
      change j'.diagnostics.errorCount = j.diagnostics.errorCount
      omega
    · exact .inr (.inr ⟨.inr hexceeds, herrs hr a, herrs hr' a'⟩)
  · exact .inr (.inr ⟨.inl hexceeds, herrs hr a, herrs hr' a'⟩)

theorem report_parallels (fault fault' : Fault) :
    Parallels f N Eq (reporting (Journal.report fault)) (reporting (Journal.report fault')) :=
  recording_parallels (r := .fault fault) (s := .fault fault') rfl rfl

theorem recording_keepsErrors {r : Report} (hr : r.isError = true) :
    KeepsErrors (reporting (Journal.recording (recordAll r.diagnostics))) := by
  intro a
  rcases recording_cases hr a with ⟨j, hs, hcount⟩ | ⟨e, b, hs⟩
  · refine Leads.of_ok hs ?_
    change a.errors ≤ j.diagnostics.errorCount
    omega
  · exact Leads.of_error hs trivial

theorem bindLabels_keepsErrors (address : Nat) (declared : Pending) (ss : List Statement) :
    KeepsErrors (bindLabels address declared ss) :=
  fun a => (bindLabels_leads address declared ss a).mono (fun _ _ h => h.2.1) fun _ _ _ => trivial

theorem processAll_keepsErrors (env : Surroundings) (pending : Pending) (ss : List Statement) :
    KeepsErrors (processAll env pending ss) :=
  fun a => (processAll_leads env pending ss a).mono (fun _ _ h => h.2.1) fun _ _ _ => trivial

theorem conclude_keepsErrors : KeepsErrors conclude :=
  fun a => (conclude_leads a).mono (fun _ _ h => Nat.le_of_eq h.1.errors.symm) fun _ _ _ => trivial

theorem generate_keepsErrors (settings : AssemblySettings) (program : Program) :
    KeepsErrors (generate settings program) := by
  rw [generate_eq]
  exact (processAll_keepsErrors _ _ _).bind fun _ => conclude_keepsErrors

/-- The end of the first pass: the entry point is looked up. -/
def findEntry (label : String) (address : Nat) : Assembling Bool := do
  match (← get).symbols.get? label with
  | some ⟨_, .label index⟩ =>
    modify fun a => { a with entryPoint := some index }
    reporting (Journal.note (.resolved (← get).symbols.size address index))
    pure !(← get).journal.diagnostics.happened
  | _ =>
    reporting (Journal.recording (recordAll (Report.missingEntry label).diagnostics))
    pure false

theorem resolve_eq_bind (settings : AssemblySettings) (program : Program) :
    resolve settings program = bindLabels 0 [] program.statements >>= findEntry settings.entryLabel := by
  have hsingle : recordAll (Report.missingEntry settings.entryLabel).diagnostics =
      record (Report.missingEntry settings.entryLabel).head := bind_pure_unit
  unfold resolve findEntry
  rw [hsingle]
  rfl

/-- Whatever the entry label is, the entry point is found or its lack is reported. -/
theorem findEntry_cases (label : String) (address : Nat) (a : Assembly) :
    (∃ l index j, a.symbols.get? label = some ⟨l, .label index⟩ ∧ j.diagnostics = a.journal.diagnostics ∧
      findEntry label address a = .ok (!a.journal.diagnostics.happened)
        { a with entryPoint := some index, journal := j }) ∨
    (∀ l index, a.symbols.get? label ≠ some ⟨l, .label index⟩) ∧ findEntry label address a =
      (do
        reporting (Journal.recording (recordAll (Report.missingEntry label).diagnostics))
        pure false : Assembling Bool) a := by
  rcases hget : a.symbols.get? label with _ | ⟨l, index | _ | _⟩
  · exact .inr ⟨by simp, by simp only [findEntry, get_bind, hget]⟩
  · exact .inl ⟨l, index, { a.journal with log := a.journal.log ++ [_] }, rfl, rfl, by
      simp only [findEntry, get_bind, hget]; rfl⟩
  · exact .inr ⟨by simp, by simp only [findEntry, get_bind, hget]⟩
  · exact .inr ⟨by simp, by simp only [findEntry, get_bind, hget]⟩

theorem findEntry_keepsErrors (label : String) (address : Nat) : KeepsErrors (findEntry label address) := by
  intro a
  rcases findEntry_cases label address a with ⟨l, index, j, -, hj, hs⟩ | ⟨-, hs⟩
  · refine Leads.of_ok hs (Nat.le_of_eq ?_)
    exact congrArg Diagnostics.errorCount hj.symm
  · exact Leads.of_eq hs ((recording_keepsErrors rfl).bind (fun _ _ => Leads.of_pure (Nat.le_refl _)) a)

section

variable (hf : Set.InjOn f N)

include hf

/-- The first pass over the statements: the labels are bound by their other names. -/
theorem bindLabels_parallels (address : Nat) {declared : Pending} (hdeclared : ∀ e ∈ declared, e.1 ∈ N)
    {ss : List Statement} (hnames : ∀ s ∈ ss, ∀ n ∈ s.names, n ∈ N) :
    Parallels f N Eq (bindLabels address declared ss)
      (bindLabels address (declared.rename f) (ss.map (Statement.rename f))) := by
  induction ss generalizing address declared with
  | nil => exact .pure rfl
  | cons s rest ih =>
    obtain ⟨hs, hrest⟩ := List.forall_mem_cons.1 hnames
    have hreport (fault fault' : Fault) : Parallels f N Eq
        (do reporting (Journal.report fault); bindLabels address declared rest)
        (do
          reporting (Journal.report fault')
          bindLabels address (declared.rename f) (rest.map (Statement.rename f))) :=
      (report_parallels fault fault').bind (fun _ _ _ => ih address hdeclared hrest)
        (fun _ => bindLabels_keepsErrors _ _ _) fun _ => bindLabels_keepsErrors _ _ _
    have hlate {name : String} (hname : name ∈ N) (l : Option Location) : Parallels f N Eq
        (if (declared.lookup name).isSome then bindLabels address declared rest
          else bindLabels address (declared ++ [(name, l)]) rest)
        (if ((declared.rename f).lookup (f name)).isSome then
            bindLabels address (declared.rename f) (rest.map (Statement.rename f))
          else bindLabels address (declared.rename f ++ [(f name, l)]) (rest.map (Statement.rename f))) := by
      rw [Pending.rename, lookup_rename hf hdeclared hname]
      split
      · exact ih address hdeclared hrest
      · have hboth : ∀ e ∈ declared ++ [(name, l)], e.1 ∈ N :=
          List.forall_mem_append.2 ⟨hdeclared, by simpa using hname⟩
        have hnext := ih address hboth hrest
        rwa [Pending.rename, List.map_append] at hnext
    cases s with
    | label l name =>
      have hname : name ∈ N := hs name (by simp [Statement.names, Statement.declared?])
      rw [List.map_cons, Statement.rename, bindLabels, bindLabels, Pending.rename, lookup_rename hf hdeclared hname]
      cases declared.lookup name with
      | some first => exact hreport _ _
      | none =>
        refine .get fun a a' h => ?_
        have hget := SymbolTable.get?_rename hf h.kept hname
        rw [h.symbols]
        simp only [SymbolTable.define, SymbolTable.checkFree, hget]
        cases a.symbols.get? name with
        | some first => exact hreport _ _
        | none =>
          intro b b' hb
          refine ih address hdeclared hrest _ _ ⟨?_, ?_, hb.entryPoint, hb.memory, hb.records, hb.errors⟩
          · simp [SymbolTable.push, SymbolTable.rename]
          · exact List.forall_mem_append.2 ⟨h.kept, by simpa using hname⟩
    | instruction l name argument => exact ih (address + 1) hdeclared hrest
    | constant l name e => exact hlate (hs name (Statement.mem_names_of_lateName? rfl)) l
    | region l name type es => exact hlate (hs name (Statement.mem_names_of_lateName? rfl)) l
    | embedding l name path => exact hlate (hs name (Statement.mem_names_of_lateName? rfl)) l
    | foreign l kind => exact ih address hdeclared hrest

theorem findEntry_parallels {label : String} (hlabel : label ∈ N) (address : Nat) :
    Parallels f N Eq (findEntry label address) (findEntry (f label) address) := by
  intro a a' h
  have hget : a'.symbols.get? (f label) = a.symbols.get? label := by
    rw [h.symbols]
    exact SymbolTable.get?_rename hf h.kept hlabel
  rcases findEntry_cases label address a with ⟨l, index, j, hl, hj, hs⟩ | ⟨hmissing, hs⟩
  · rcases findEntry_cases (f label) address a' with ⟨l', index', j', hl', hj', hs'⟩ | ⟨hmissing', -⟩
    · obtain ⟨rfl, rfl⟩ : l' = l ∧ index' = index := by simpa [hl'] using hget.trans hl
      have hhappened : a'.journal.diagnostics.happened = a.journal.diagnostics.happened :=
        congrArg (fun n => decide (0 < n)) h.errors
      refine .inl ⟨_, _, _, _, hs, hs', by rw [hhappened], h.symbols, h.kept, rfl, h.memory, h.records, ?_⟩
      change j'.diagnostics.errorCount = j.diagnostics.errorCount
      rw [hj, hj']
      exact h.errors
    · exact absurd (hget.trans hl) (hmissing' l index)
  · rcases findEntry_cases (f label) address a' with ⟨l', index', -, hl', -⟩ | ⟨-, hs'⟩
    · exact absurd (hget.symm.trans hl') (hmissing l' index')
    · have hboth : Parallels f N Eq
          (do reporting (Journal.recording (recordAll (Report.missingEntry label).diagnostics)); pure false)
          (do reporting (Journal.recording (recordAll (Report.missingEntry (f label)).diagnostics)); pure false) :=
        (recording_parallels rfl rfl).bind (fun _ _ _ => .pure rfl) (fun _ _ => Leads.of_pure (Nat.le_refl _))
          fun _ _ => Leads.of_pure (Nat.le_refl _)
      simpa only [Exceeds, Errs, Leads, hs, hs'] using hboth a a' h

theorem resolve_parallels {settings : AssemblySettings} (hentry : settings.entryLabel ∈ N) {program : Program}
    (hnames : ∀ s ∈ program.statements, ∀ n ∈ s.names, n ∈ N) :
    Parallels f N Eq (resolve settings program) (resolve (settings.rename f) (program.rename f)) := by
  rw [resolve_eq_bind, resolve_eq_bind]
  refine (bindLabels_parallels hf 0 (List.forall_mem_nil _) hnames).bind ?_ (fun _ => findEntry_keepsErrors _ _)
    fun _ => findEntry_keepsErrors _ _
  rintro address _ rfl
  exact findEntry_parallels hf hentry address

omit hf in
/-- A statement is processed in the same way by other names, and a fault is one error more in both passes or ends both. -/
theorem attempt_parallels {step step' : Attempt Unit} (h : (attemptByNames f N).Mirrors Eq step step') :
    Parallels f N Eq (attempt step) (attempt step') := by
  intro a a' haa'
  rcases h.cases haa' with ⟨x, b, y, b', hs, hs', -, hb⟩ | ⟨obstacle, b, obstacle', b', hs, hs', halike, hb⟩
  · exact .inl ⟨(), b, (), b', attempt_of_ok hs, attempt_of_ok hs', rfl, hb⟩
  cases obstacle with
  | search e =>
    cases obstacle' with
    | fault fault' => exact halike.elim
    | search e' => exact .inr (.inl ⟨_, b, _, b', attempt_of_search hs, attempt_of_search hs', hb⟩)
  | fault fault =>
    cases obstacle' with
    | search e' => exact halike.elim
    | fault fault' =>
      cases hends : fault.isFatal with
      | true =>
        have hends' : fault'.isFatal = true := halike.trans hends
        exact .inr (.inl ⟨_, b, _, b', attempt_of_fatal hs hends, attempt_of_fatal hs' hends', hb⟩)
      | false =>
        have hattempt := attempt_of_fault hs hends
        have hattempt' := attempt_of_fault hs' (halike.trans hends)
        simpa only [Exceeds, Errs, Leads, hattempt, hattempt'] using report_parallels fault fault' b b' hb

theorem processAll_parallels (env : Surroundings) (pending pending' : Pending) {ss : List Statement}
    (hnames : ∀ s ∈ ss, ∀ n ∈ s.names, n ∈ N) :
    Parallels f N Eq (processAll env pending ss) (processAll env pending' (ss.map (Statement.rename f))) := by
  induction ss with
  | nil => exact .pure rfl
  | cons s rest ih =>
    obtain ⟨hs, hrest⟩ := List.forall_mem_cons.1 hnames
    exact (attempt_parallels (process_rename hf env hs)).bind (fun _ _ _ => ih hrest)
      (fun _ => processAll_keepsErrors _ _ _) fun _ => processAll_keepsErrors _ _ _

omit hf in
theorem conclude_parallels : Parallels f N Eq conclude conclude := by
  refine .get fun a a' h => ?_
  have hhappened : a'.journal.diagnostics.happened = a.journal.diagnostics.happened :=
    congrArg (fun n => decide (0 < n)) h.errors
  rw [hhappened, h.memory, h.records, h.entryPoint]
  split
  · exact .pure rfl
  · intro b b' hb
    exact .inl ⟨_, _, _, _, rfl, rfl, rfl, hb.symbols, hb.kept, hb.entryPoint, hb.memory, hb.records, hb.errors⟩

theorem generate_parallels (settings : AssemblySettings) {program : Program}
    (hnames : ∀ s ∈ program.statements, ∀ n ∈ s.names, n ∈ N) :
    Parallels f N Eq (generate settings program) (generate (settings.rename f) (program.rename f)) := by
  rw [generate_eq, generate_eq]
  exact (processAll_parallels hf settings.surroundings _ _ hnames).bind (fun _ _ _ => conclude_parallels)
    (fun _ => conclude_keepsErrors) fun _ => conclude_keepsErrors

theorem compile_parallels {settings : AssemblySettings} (hentry : settings.entryLabel ∈ N) {program : Program}
    (hnames : ∀ s ∈ program.statements, ∀ n ∈ s.names, n ∈ N) :
    Parallels f N Eq (compile settings program) (compile (settings.rename f) (program.rename f)) := by
  have hkeep (settings : AssemblySettings) (program : Program) (ready : Bool) :
      KeepsErrors (if ready = true then generate settings program else pure none) := by
    split
    · exact generate_keepsErrors settings program
    · exact fun _ => Leads.of_pure (Nat.le_refl _)
  refine (resolve_parallels hf hentry hnames).bind ?_ (hkeep _ _) (hkeep _ _)
  rintro ready _ rfl
  cases ready with
  | true => exact generate_parallels hf settings hnames
  | false => exact .pure rfl

end

/-- A pass with an error recorded at its end gives no image. -/
theorem compile_ne_image {settings : AssemblySettings} {program : Program} {a b : Assembly} {image : Image}
    (h : Errs (compile settings program) a) : compile settings program a ≠ .ok (some image) b := by
  intro hrun
  have herrors : 0 < b.errors := h.at_ok hrun
  have hanswer : true = !b.journal.diagnostics.happened := (compile_answer settings program a).at_ok hrun
  have hzero : b.errors = 0 := errors_eq_zero_iff.1 (by simpa using hanswer)
  omega

/-- Names do not matter. A program is renamed together with its entry label, so that the names that it declares or
refers to are kept apart from each other and from the entry label. Compiling the renamed program gives the same image as
compiling the program, if that gives one at all, and a table with the same entries in their order by the other names.
Where there is no image, the tables correspond as well, unless the limit of diagnostics is exceeded in one of the runs. -/
theorem compile_rename {f : String → String} {settings : AssemblySettings} {program : Program}
    (hf : Set.InjOn f {n | n = settings.entryLabel ∨ n ∈ program.names}) (j : Journal) :
    let run := compile settings program
    let other := compile (settings.rename f) (program.rename f)
    (∀ image entries,
      (∃ a, run { journal := j } = .ok (some image) a ∧ a.symbols.entries.map (fun e => (f e.1, e.2)) = entries) ↔
        ∃ b, other { journal := j } = .ok (some image) b ∧ b.symbols.entries = entries) ∧
      (Exceeds run { journal := j } ∨ Exceeds other { journal := j } ∨
        (endState run { journal := j }).symbols.entries.map (fun e => (f e.1, e.2)) =
          (endState other { journal := j }).symbols.entries) := by
  intro run other
  have hnames : ∀ s ∈ program.statements, ∀ n ∈ s.names, n ∈ {n | n = settings.entryLabel ∨ n ∈ program.names} :=
    fun s hs n hn => .inr (List.mem_flatMap.2 ⟨s, hs, hn⟩)
  have hstart : Renamed f {n | n = settings.entryLabel ∨ n ∈ program.names} { journal := j } { journal := j } :=
    ⟨rfl, by simp, rfl, rfl, rfl, rfl⟩
  rcases compile_parallels hf (.inl rfl) hnames _ _ hstart with
    ⟨x, a, y, b, hrun, hother, rfl, hab⟩ | ⟨e, a, e', b, hrun, hother, hab⟩ | ⟨hexceeds, herrs, herrs'⟩
  · have hentries : a.symbols.entries.map (fun e => (f e.1, e.2)) = b.symbols.entries := by rw [hab.symbols]; rfl
    refine ⟨fun image entries => ?_, .inr (.inr ?_)⟩
    · simp only [run, other, hrun, hother, EStateM.Result.ok.injEq, and_assoc, exists_and_left, exists_eq_left', hentries]
    · simpa only [run, other, endState, hrun, hother] using hentries
  · have hentries : a.symbols.entries.map (fun e => (f e.1, e.2)) = b.symbols.entries := by rw [hab.symbols]; rfl
    refine ⟨fun image entries => ?_, .inr (.inr ?_)⟩
    · simp only [run, other, hrun, hother, reduceCtorEq, false_and, exists_false]
    · simpa only [run, other, endState, hrun, hother] using hentries
  · refine ⟨fun image entries => ?_, hexceeds.imp_right .inl⟩
    constructor
    · rintro ⟨a, hrun, -⟩
      exact absurd hrun (compile_ne_image herrs)
    · rintro ⟨b, hother, -⟩
      exact absurd hother (compile_ne_image herrs')

/-- Whether finitely many names are kept apart can be checked. -/
theorem injOn_names {f : String → String} {settings : AssemblySettings} {program : Program}
    (h : ∀ n ∈ settings.entryLabel :: program.names, ∀ m ∈ settings.entryLabel :: program.names, f n = f m → n = m) :
    Set.InjOn f {n | n = settings.entryLabel ∨ n ∈ program.names} :=
  fun n hn m hm => h n (List.mem_cons.2 hn) m (List.mem_cons.2 hm)

/-- The entry label and a constant change names. -/
theorem compile_rename_swap :
    let f : String → String := fun n => if n = "entry" then "x" else if n = "x" then "entry" else n
    let settings : AssemblySettings := { surroundings := ⟨{}, []⟩ }
    let program : Program :=
      { statements := [.label none "entry", .constant none "x" (.integer none 7),
          .instruction none "psh" (some (.name none "x"))] }
    Set.InjOn f {n | n = settings.entryLabel ∨ n ∈ program.names} ∧
      ∃ image b, compile (settings.rename f) (program.rename f) { journal := {} } = .ok (some image) b ∧
        b.symbols.entries = [("x", ⟨none, .label 0⟩), ("entry", ⟨none, .constant 7⟩)] := by
  intro f settings program
  have hf : Set.InjOn f {n | n = settings.entryLabel ∨ n ∈ program.names} := injOn_names (by decide +kernel)
  obtain ⟨image, a, hrun, hentries⟩ : ∃ image a, compile settings program { journal := {} } = .ok (some image) a ∧
      a.symbols.entries = [("entry", ⟨none, .label 0⟩), ("x", ⟨none, .constant 7⟩)] := ⟨_, _, rfl, rfl⟩
  have hrenamed := ((compile_rename hf {}).1 image _).1 ⟨a, hrun, rfl⟩
  rw [hentries] at hrenamed
  obtain ⟨b, hother, hb⟩ := hrenamed
  exact ⟨hf, image, b, hother, hb⟩

/-- A name that is like the entry label is suggested that label, and the suggestions count: after five uses of the name
the limit is exceeded, and the constant behind them is not bound. By a name that is like no other, it is. -/
theorem compile_rename_suggested :
    let f : String → String := fun n => if n = "q" then "entri" else n
    let settings : AssemblySettings := { surroundings := ⟨{}, []⟩ }
    let use : Statement := .instruction none "psh" (some (.name none "q"))
    let program : Program :=
      { statements := [.label none "entry", use, use, use, use, use, .constant none "x" (.integer none 1)] }
    Set.InjOn f {n | n = settings.entryLabel ∨ n ∈ program.names} ∧
      (endState (compile settings program) {}).symbols.entries.map (fun e => (f e.1, e.2)) ≠
        (endState (compile (settings.rename f) (program.rename f)) {}).symbols.entries := by
  intro f settings use program
  have hf : Set.InjOn f {n | n = settings.entryLabel ∨ n ∈ program.names} := injOn_names (by decide +kernel)
  have hrun : (endState (compile settings program) {}).symbols.entries.length = 2 := by decide +kernel
  have hother : (endState (compile (settings.rename f) (program.rename f)) {}).symbols.entries.length = 1 := by
    decide +kernel
  refine ⟨hf, fun heq => ?_⟩
  have hlength := congrArg List.length heq
  rw [List.length_map, hrun, hother] at hlength
  omega

end Assembly

end AvmAssembler
