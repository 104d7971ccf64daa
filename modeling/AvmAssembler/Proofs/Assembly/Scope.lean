import AvmAssembler.Proofs.Assembly.Indexing
import AvmAssembler.Proofs.Assembly.Redefinition

/-! # Scope

At a statement of the second pass the table holds the labels of the whole program and the constants and regions that are
declared before, whether or not their declarations succeeded. These are the names that expressions of the statement can
refer to. A reference to any other name is the reason why the statement fails, or it is not reached.
-/

namespace AvmAssembler

/-- A name at the place where it is referred to. -/
abbrev Reference := Option Location × String

mutual

/-- The names that an expression refers to, by themselves or as the variables whose sizes are taken. -/
def Expr.references : Expr → List Reference
  | .name l n | .sizeof _ (.name l n) => [(l, n)]
  | .apply _ _ operands => allReferences operands
  | .fill _ value count => value.references ++ count.references
  | .integer .. | .float .. | .string .. | .type .. | .sizeof _ (.type ..) | .foreign .. => []

def Expr.allReferences : List Expr → List Reference
  | [] => []
  | e :: es => e.references ++ allReferences es

end

def Statement.references : Statement → List Reference
  | .instruction _ _ (some e) | .constant _ _ e => e.references
  | .region _ _ _ es => Expr.allReferences es
  | .instruction _ _ none | .label .. | .embedding .. | .foreign .. => []

namespace SymbolTable

def Knows (table : SymbolTable) (rs : List Reference) : Prop :=
  ∀ r ∈ rs, (table.get? r.2).isSome

/-- If the fault is that of a name that is not found, one of the references has it. -/
def Misses (table : SymbolTable) (pending : Pending) (rs : List Reference) (fault : Fault) : Prop :=
  fault.cause.category = .undefinedSymbol →
    ∃ r ∈ rs, table.get? r.2 = none ∧ fault = Expr.undefined table pending r.1 r.2

variable {table : SymbolTable} {pending : Pending} {rs rs' : List Reference} {fault : Fault}

theorem Knows.nil (table : SymbolTable) : table.Knows [] := by simp [Knows]

theorem Knows.append (h : table.Knows rs) (h' : table.Knows rs') : table.Knows (rs ++ rs') :=
  fun r hr => (List.mem_append.1 hr).elim (h r) (h' r)

theorem Misses.mono (h : table.Misses pending rs fault) (hsub : rs ⊆ rs') : table.Misses pending rs' fault := by
  intro hcategory
  obtain ⟨r, hr, hmissing⟩ := h hcategory
  exact ⟨r, hsub hr, hmissing⟩

theorem Misses.of_category (h : fault.cause.category ≠ .undefinedSymbol) : table.Misses pending rs fault :=
  fun hcategory => absurd hcategory h

end SymbolTable

/-! ## Expressions -/

theorem Operator.apply_category {o : Operator} {x y : Int} {cause : Cause} (h : o.apply x y = .error cause) :
    cause.category = .expression := by
  have hshift : ∀ f, shift y f = .error cause → cause.category = .expression := by
    intro f h
    unfold shift at h
    split at h
    · cases h
    · split at h
      · cases h
        rfl
      · cases h
  cases o with
  | add | sub | mul | conj | disj => cases h
  | div | mod =>
    simp only [apply] at h
    split at h
    · cases h
      rfl
    · cases h
  | pow =>
    simp only [apply] at h
    split at h <;> cases h <;> rfl
  | shiftRight | shiftLeft =>
    simp only [apply] at h
    exact hshift _ h

theorem OperatorSign.apply_category {sign : OperatorSign} {x y : Int} {cause : Cause}
    (h : sign.apply x y = .error cause) : cause.category = .expression := by
  cases sign with
  | known o => exact Operator.apply_category h
  | unknown text =>
    cases h
    rfl

namespace Expr

variable {table : SymbolTable} {pending : Pending} {fault : Fault}

theorem nameValue_of_missing {name : String} (h : table.get? name = none) (l : Option Location) :
    nameValue table pending l name = .error (undefined table pending l name) := by
  simp only [nameValue, h]

theorem sizeofValue_of_missing {name : String} (h : table.get? name = none) (l : Option Location) :
    sizeofValue table pending (.name l name) = .error (undefined table pending l name) := by
  simp only [sizeofValue, h]

mutual

/-- An expression that has a value refers to no missing name. -/
theorem value_knows : ∀ {e : Expr} {v : Int}, value table pending e = .ok v → table.Knows e.references
  | .integer .., _, _ | .float .., _, _ | .sizeof _ (.type ..), _, _ => .nil table
  | .name l n, v, h => by
    obtain ⟨s, hget, -⟩ := nameValue_ok.1 h
    simp [references, SymbolTable.Knows, hget]
  | .sizeof _ (.name l n), v, h => by
    obtain ⟨_, _, ⟨⟩, -⟩ | ⟨_, _, first, address, ⟨⟩, hget⟩ := sizeofValue_ok.1 h
    simp [references, SymbolTable.Knows, hget]
  | .apply l sign operands, v, h => by
    obtain ⟨first, second, rest, x, rfl, hfirst, hrest⟩ := value_apply.1 h
    exact (value_knows hfirst).append (applyAll_knows hrest)

theorem applyAll_knows : ∀ {es : List Expr} {sign : OperatorSign} {x v : Int},
    applyAll table pending sign x es = .ok v → table.Knows (allReferences es)
  | [], _, _, _, _ => .nil table
  | e :: es, sign, x, v, h => by
    obtain ⟨y, r, hy, -, hrest⟩ := applyAll_cons.1 h
    exact (value_knows hy).append (applyAll_knows hrest)

end

mutual

/-- A missing name that an expression fails for is one that it refers to. -/
theorem value_misses : ∀ {e : Expr}, value table pending e = .error fault → table.Misses pending e.references fault
  | .integer .., h | .float .., h | .sizeof _ (.type ..), h => by cases h
  | .name l n, h => fun _ => by
    cases hget : table.get? n with
    | none =>
      have hfault : Except.error fault = Except.error (undefined table pending l n) :=
        h.symm.trans (nameValue_of_missing hget l)
      cases hfault
      exact ⟨(l, n), by simp [references], hget, rfl⟩
    | some s =>
      have hvalue : nameValue table pending l n = .ok (Word.ofInt s.meaning.value) := nameValue_ok.2 ⟨s, hget, rfl⟩
      cases h.symm.trans hvalue
  | .sizeof _ (.name l n), h => fun hcategory => by
    cases hget : table.get? n with
    | none =>
      have hfault : Except.error fault = Except.error (undefined table pending l n) :=
        h.symm.trans (sizeofValue_of_missing hget l)
      cases hfault
      exact ⟨(l, n), by simp [references], hget, rfl⟩
    | some s =>
      obtain ⟨first, meaning⟩ := s
      rw [value, sizeofValue] at h
      simp only [hget] at h
      cases meaning <;> cases h <;> cases hcategory
  | .apply l sign [], h | .apply l sign [_], h | .string .., h | .fill .., h | .type .., h | .foreign .., h => by
    cases h
    exact .of_category (by simp [Cause.category])
  | .apply l sign (first :: second :: rest), h => by
    rcases bind_eq_error.1 h with hfirst | ⟨x, -, hrest⟩
    · exact (value_misses hfirst).mono (List.subset_append_left _ _)
    · exact (applyAll_misses hrest).mono (List.subset_append_right _ _)

theorem applyAll_misses : ∀ {es : List Expr} {sign : OperatorSign} {x : Int},
    applyAll table pending sign x es = .error fault → table.Misses pending (allReferences es) fault
  | [], _, _, h => by cases h
  | e :: es, sign, x, h => by
    rcases bind_eq_error.1 h with hvalue | ⟨y, -, hrest⟩
    · exact (value_misses hvalue).mono (List.subset_append_left _ _)
    · split at hrest
      · exact (applyAll_misses hrest).mono (List.subset_append_right _ _)
      · rename_i cause hcause
        cases hrest
        exact .of_category (by simp [OperatorSign.apply_category hcause])

end

end Expr

open Statement Diagnostics

namespace Assembly

/-! ## Statements -/

section

variable {pending : Pending} {a : Assembly} {rs rs' : List Reference} {α β : Type}

/-- The step finds all the references in the table in which it starts, unless it fails; and if it fails for a missing
name, it is one of them. -/
def Resolves (pending : Pending) (rs : List Reference) (step : Processing α) (a : Assembly) : Prop :=
  Leads step a (fun _ _ => a.symbols.Knows rs) (fun fault _ => a.symbols.Misses pending rs fault)

/-- The step finds the references and leaves the table as it is. -/
def Consults (pending : Pending) (rs : List Reference) (step : Processing α) (a : Assembly) : Prop :=
  Leads step a (fun _ b => b.symbols = a.symbols ∧ a.symbols.Knows rs)
    (fun fault _ => a.symbols.Misses pending rs fault)

theorem Consults.pure (x : α) : Consults pending [] (pure x) a := Leads.of_pure ⟨rfl, .nil _⟩

theorem Resolves.throw {fault : Fault} (h : fault.cause.category ≠ .undefinedSymbol) :
    Resolves pending rs (throw fault : Processing α) a := Leads.of_throw (.of_category h)

theorem Consults.bind {step : Processing α} {next : α → Processing β} (h : Consults pending rs step a)
    (hnext : ∀ x b, b.symbols = a.symbols → Consults pending rs' (next x) b) :
    Consults pending (rs ++ rs') (step >>= next) a := by
  refine Leads.of_bind h ?_ fun _ _ hmisses => hmisses.mono (List.subset_append_left _ _)
  rintro x b ⟨hsymbols, hknows⟩
  refine Leads.mono (hnext x b hsymbols) ?_ ?_
  · rintro y c ⟨hsymbols', hknows'⟩
    exact ⟨hsymbols'.trans hsymbols, hknows.append (hsymbols ▸ hknows')⟩
  · exact fun _ _ hmisses => hsymbols ▸ hmisses.mono (List.subset_append_right _ _)

/-- All the references have been found before the last step. -/
theorem Consults.finish {step : Processing α} {next : α → Processing β} (h : Consults pending rs step a)
    (hnext : ∀ x b, b.symbols = a.symbols → Resolves pending [] (next x) b) :
    Resolves pending rs (step >>= next) a := by
  refine Leads.of_bind h ?_ fun _ _ hmisses => hmisses
  rintro x b ⟨hsymbols, hknows⟩
  refine Leads.mono (hnext x b hsymbols) (fun _ _ _ => hknows) fun fault _ hmisses => ?_
  exact hsymbols ▸ hmisses.mono (List.nil_subset _)

/-- A step that consults nothing before the others. -/
theorem Consults.start {step : Processing α} {next : α → Processing β} (h : Consults pending [] step a)
    (hnext : ∀ x b, b.symbols = a.symbols → Resolves pending rs (next x) b) :
    Resolves pending rs (step >>= next) a := by
  refine Leads.of_bind h ?_ fun _ _ hmisses => hmisses.mono (List.nil_subset _)
  rintro x b ⟨hsymbols, -⟩
  exact Leads.mono (hnext x b hsymbols) (fun _ _ hknows => hsymbols ▸ hknows) fun _ _ hmisses => hsymbols ▸ hmisses

theorem valueOf_consults (pending : Pending) (e : Expr) (a : Assembly) :
    Consults pending e.references (valueOf pending e) a := by
  refine Leads.of_get (Leads.of_bind (orFault_leads a _) ?_ ?_)
  · rintro v _ ⟨rfl, hvalue⟩
    exact Leads.of_pure ⟨rfl, Expr.value_knows hvalue⟩
  · rintro fault _ ⟨rfl, hfault⟩
    exact Expr.value_misses hfault

theorem element_consults (pending : Pending) (word : Nat) (type : ElementType) (l : Option Location) (a : Assembly) :
    Consults pending [] (element word type l) a :=
  (element_leads type l a word).mono (fun _ _ h => ⟨h.1.symbols, .nil _⟩) fun _ _ h => h.elim

theorem initializerBytes_consults (pending : Pending) (type : ElementType) (e : Expr) (a : Assembly) :
    Consults pending e.references (initializerBytes pending type e) a := by
  have hscalar : Consults pending (e.references ++ [])
      (do let word ← valueOf pending e; element word type e.location) a :=
    (valueOf_consults pending e a).bind fun word b _ => element_consults pending word type e.location b
  rw [List.append_nil] at hscalar
  cases e with
  | fill location value count =>
    refine (valueOf_consults pending value a).bind fun word b _ => ?_
    have hcount : ∀ bytes : List UInt8, ∀ c, Consults pending (count.references ++ [])
        (do let times ← valueOf pending count
            if Word.isNegative times then throw ⟨.negativeFill, count.location⟩
            if memoryLimit < bytes.length * times then throw ⟨.hugeFill memoryLimit, count.location⟩
            pure (List.replicate times bytes).flatten) c := by
      refine fun bytes c => (valueOf_consults pending count c).bind fun times d _ => ?_
      refine Leads.of_ite (Leads.of_throw_bind (.of_category (by simp [Cause.category]))) ?_
      exact Leads.of_ite (Leads.of_throw_bind (.of_category (by simp [Cause.category]))) (Consults.pure _)
    simp only [List.append_nil] at hcount
    exact (element_consults pending word type value.location b).bind fun bytes c _ => hcount bytes c
  | string location text =>
    refine (elements_leads type location a _).mono ?_ fun _ _ h => h.elim
    exact fun _ _ h => ⟨h.1.symbols, .nil _⟩
  | _ => exact hscalar

theorem initializersBytes_consults (pending : Pending) (type : ElementType) (es : List Expr) (a : Assembly) :
    Consults pending (Expr.allReferences es) (initializersBytes pending type es) a := by
  induction es generalizing a with
  | nil => exact Consults.pure []
  | cons e es ih =>
    have hmore : ∀ bytes : List UInt8, ∀ b, Consults pending (Expr.allReferences es ++ [])
        (do let more ← initializersBytes pending type es; Pure.pure (bytes ++ more)) b :=
      fun bytes b => (ih b).bind fun _ _ _ => Consults.pure _
    simp only [List.append_nil] at hmore
    exact (initializerBytes_consults pending type e a).bind fun bytes b _ => hmore bytes b

theorem checkFree_consults (pending : Pending) (name : String) (l : Option Location) (a : Assembly) :
    Consults pending [] (checkFree name l) a := by
  refine Leads.of_get ((orFault_leads a (a.symbols.checkFree name l)).mono ?_ ?_)
  · rintro _ _ ⟨rfl, -⟩
    exact ⟨rfl, .nil _⟩
  · rintro fault _ ⟨rfl, hfault⟩
    obtain ⟨symbol, -, rfl⟩ := SymbolTable.checkFree_eq_error.1 hfault
    exact .of_category (by simp [Cause.category])

theorem define_resolves (pending : Pending) (name : String) (symbol : Symbol) (a : Assembly) :
    Resolves pending [] (define name symbol) a := by
  refine Leads.of_get (Leads.of_bind (orFault_leads a _) ?_ ?_)
  · rintro symbols _ ⟨rfl, -⟩
    exact Leads.of_modify (.nil _)
  · rintro fault _ ⟨rfl, hfault⟩
    obtain ⟨first, -, rfl⟩ := SymbolTable.define_eq_error.1 hfault
    exact .of_category (by simp [Cause.category])

/-- Binding the name all the same changes neither the references that are found nor the one that is missing. -/
theorem Consults.orBind {step : Processing α} (h : Consults pending rs step a) (name : String) (symbol : Symbol) :
    Consults pending rs (orBind name symbol step) a := by
  unfold Consults at h
  cases hs : step a with
  | ok x b =>
    refine Leads.of_ok (x := x) (t := b) ?_ (h.at_ok hs)
    simp only [Assembly.orBind, hs]
  | error fault b =>
    cases hd : define name symbol b with
    | ok x c =>
      refine Leads.of_error (e := fault) (t := c) ?_ (h.at_error hs)
      simp only [Assembly.orBind, hs, hd]
    | error e c =>
      have hdefine : Leads (define name symbol) b (fun _ _ => b.symbols.Knows [])
          (fun fault _ => b.symbols.Misses pending [] fault) := define_resolves pending name symbol b
      refine Leads.of_error (e := e) (t := c) (by simp only [Assembly.orBind, hs, hd]) fun hcategory => ?_
      obtain ⟨r, hr, -⟩ := hdefine.at_error hd hcategory
      cases hr

theorem appendInstruction_resolves (pending : Pending) (l : Option Location) (name : String) (argument : Option Expr)
    (a : Assembly) :
    Resolves pending (references (.instruction l name argument)) (appendInstruction pending l name argument) a := by
  unfold appendInstruction
  split
  · exact Resolves.throw (by simp [Cause.category])
  · split
    · exact Resolves.throw (by simp [Cause.category])
    · exact Resolves.throw (by simp [Cause.category])
    · rename_i e _
      exact (valueOf_consults pending e a).finish fun word b _ => Leads.of_modify (.nil _)
    · exact Leads.of_modify (.nil _)

/-- A statement that succeeds has found the references, and if it fails for a missing name, it is one of them. -/
def ResolvesAll (pending : Pending) (rs : List Reference) (step : Attempt Unit) (a : Assembly) : Prop :=
  Leads step a (fun _ _ => a.symbols.Knows rs)
    (fun obstacle _ => ∀ fault, obstacle = .fault fault → a.symbols.Misses pending rs fault)

theorem Resolves.all {step : Processing Unit} (h : Resolves pending rs step a) :
    ResolvesAll pending rs (step.adaptExcept .fault) a :=
  Leads.adaptExcept h fun _ _ hmisses _ heq => Obstacle.fault.inj heq ▸ hmisses

theorem embed_resolves (env : Surroundings) (pending : Pending) (l : Option Location) (name path : String)
    (a : Assembly) : ResolvesAll pending [] (embed env l name path) a := by
  refine (embed_leads l env a name path).mono (fun _ _ _ => .nil _) ?_
  rintro _ b hstops fault rfl
  obtain ⟨g, hfailure, -⟩ := hstops
  refine .of_category ?_
  cases hfailure with
  | taken => simp [Cause.category]
  | embedding hfatal =>
    intro hcategory
    simp [Fault.isFatal, hcategory, FaultCategory.isFatal] at hfatal
  | nameless hname => cases hname

theorem process_resolves (env : Surroundings) (pending : Pending) (s : Statement) (a : Assembly) :
    ResolvesAll pending s.references (process env pending s) a := by
  cases s with
  | label l name => exact Leads.of_pure (.nil _)
  | instruction l name argument => exact (appendInstruction_resolves pending l name argument a).all
  | constant l name e =>
    refine Resolves.all ((checkFree_consults pending name l a).start fun _ b _ => ?_)
    exact ((valueOf_consults pending e b).orBind name _).finish fun word c _ => define_resolves pending name _ c
  | region l name type es =>
    refine Resolves.all ((checkFree_consults pending name l a).start fun _ b _ => ?_)
    refine ((initializersBytes_consults pending type es b).orBind name _).finish fun bytes c _ => ?_
    exact define_resolves pending name _ { c with memory := c.memory ++ bytes }
  | embedding l name path => exact embed_resolves env pending l name path a
  | foreign l kind =>
    refine Leads.of_throw ?_
    rintro _ ⟨⟩
    exact .of_category (by simp [Cause.category])

end

/-! ## The names in scope -/

section

variable {env : Surroundings} {pending : Pending} {settings : AssemblySettings} {program : Program} {j : Journal}
  {ss done rest : List Statement} {s : Statement} {name : String} {a b start : Assembly}

/-- The names that can be referred to behind the statements that are done: the labels of all statements, and the
constants and regions among those that are done. -/
def InScope (ss done : List Statement) (name : String) : Prop :=
  (∃ l, .label l name ∈ ss) ∨ ∃ d ∈ done, d.lateName? = some name

theorem isSome_get?_of_label {l : Option Location} (h : .label l name ∈ ss)
    (hb : b.symbols.entries = labelEntries 0 ss) : (b.symbols.get? name).isSome := by
  obtain ⟨before, after, rfl⟩ := List.append_of_mem h
  rw [Option.isSome_iff_ne_none, Ne, SymbolTable.get?_eq_none_iff, SymbolTable.names, hb, labelEntries_append]
  simp [labelEntries]

theorem exists_label_iff (hplaced : Placed ss [] start) (hstart : start.symbols.entries = labelEntries 0 ss) :
    (∃ l, .label l name ∈ ss) ↔ (firstLabel? name ss).isSome := by
  constructor
  · rintro ⟨l, hl⟩
    have hsome := isSome_get?_of_label hl hstart
    have hname := congrArg Option.isSome (hplaced name)
    simpa [hsome] using hname.symm
  · intro hsome
    obtain ⟨d, hd⟩ := Option.isSome_iff_exists.1 hsome
    obtain ⟨hfirst, hlabel⟩ := firstLabel?_eq_some.1 hd
    have hmem : d ∈ ss := List.mem_of_find?_eq_some hfirst
    have hname : d.declared? = some name := by simpa using List.find?_some hfirst
    cases d with
    | label l other =>
      obtain rfl : other = name := Option.some.inj hname
      exact ⟨l, hmem⟩
    | instruction | foreign => cases hname
    | constant | region | embedding => cases hlabel

theorem isSome_firstLate?_iff : (firstLate? name done).isSome ↔ ∃ d ∈ done, d.lateName? = some name := by
  simp [firstLate?]

theorem Placed.isSome_get?_iff (h : Placed ss done b)
    (hlabels : (∃ l, .label l name ∈ ss) ↔ (firstLabel? name ss).isSome) :
    (b.symbols.get? name).isSome ↔ InScope ss done name := by
  have hname := congrArg Option.isSome (h name)
  simp only [Option.isSome_map, Option.isSome_or] at hname
  rw [InScope, hlabels, ← isSome_firstLate?_iff, hname, Bool.or_eq_true]

/-- The fault tells that a name is missing: it is used before its first declaration as a constant or region, which is
noted, or it is not declared as one at all. -/
def Unresolved (ss : List Statement) (name : String) (fault : Fault) : Prop :=
  match (firstLate? name ss).bind Statement.location with
  | some place => fault.message = s!"'{name}' used before its declaration" ∧
    fault.cause.notes = [(some place, s!"'{name}' declared here")]
  | none => fault.message = s!"undeclared identifier '{name}'" ∧ fault.cause.notes = []

theorem undefined_unresolved (table : SymbolTable) (ss : List Statement) (l : Option Location) (name : String) :
    Unresolved ss name (Expr.undefined table (declarations ss) l name) ∧
      (Expr.undefined table (declarations ss) l name).location = l := by
  unfold Unresolved Expr.undefined
  rw [lookup_declarations]
  cases hfirst : firstLate? name ss with
  | none => exact ⟨⟨rfl, rfl⟩, rfl⟩
  | some d =>
    rw [Option.map_some, Option.bind_some]
    cases d.location <;> exact ⟨⟨rfl, rfl⟩, rfl⟩

/-- A constant or region that is not in scope is first declared at the statement or behind it. -/
theorem firstLate?_of_not_inScope (hname : ¬InScope (done ++ rest) done name) :
    firstLate? name (done ++ rest) = firstLate? name rest := by
  have hdone : firstLate? name done = none := by
    rw [← Option.not_isSome_iff_eq_none, isSome_firstLate?_iff]
    exact fun h => hname (.inr h)
  rw [firstLate?, List.find?_append, ← firstLate?, hdone, Option.none_or, ← firstLate?]

/-- When the first pass has succeeded and the second comes to a statement, a name is found in the table exactly if it is
that of a label anywhere in the program or of a constant or region declared before, whatever became of the declaration.
Looking up any other name fails: the name is used before its declaration, which is at the statement or behind it, or it
is undeclared. A statement that succeeds has found all names that it refers to, and one that fails for a missing name
fails in this way, at the place of a reference to it. -/
theorem scope_exact (hresolve : resolve settings program { journal := j } = .ok true start)
    (hstatements : program.statements = done ++ s :: rest)
    (hdone : processAll settings.surroundings (declarations program.statements) done start = .ok () b) :
    (∀ name, (b.symbols.get? name).isSome ↔ InScope program.statements done name) ∧
      (∀ name l, ¬InScope program.statements done name → ∃ fault,
        Expr.nameValue b.symbols (declarations program.statements) l name = .error fault ∧
        Expr.sizeofValue b.symbols (declarations program.statements) (.name l name) = .error fault ∧
        fault.location = l ∧ Unresolved program.statements name fault ∧
        firstLate? name program.statements = firstLate? name (s :: rest)) ∧
      Leads (process settings.surroundings (declarations program.statements) s) b
        (fun _ _ => ∀ r ∈ s.references, InScope program.statements done r.2)
        (fun obstacle _ => ∀ fault, obstacle = .fault fault → fault.cause.category = .undefinedSymbol →
          ∃ r ∈ s.references, ¬InScope program.statements done r.2 ∧ fault.location = r.1 ∧
            Unresolved program.statements r.2 fault) := by
  have hplaced : Placed program.statements [] start := ((resolve_labelled settings program j).at_ok hresolve).1
  have hstart : start.symbols.entries = labelEntries 0 program.statements := by
    rw [(((resolve_leads settings program _).at_ok hresolve).2.2 rfl).symbols]
    rfl
  have hscope : ∀ name, (b.symbols.get? name).isSome ↔ InScope program.statements done name :=
    fun name => ((processAll_placed hplaced done).at_ok hdone).isSome_get?_iff (exists_label_iff hplaced hstart)
  have hmissing : ∀ name, b.symbols.get? name = none ↔ ¬InScope program.statements done name :=
    fun name => by rw [← hscope, Option.not_isSome_iff_eq_none]
  refine ⟨hscope, ?_, ?_⟩
  · intro name l hname
    have hnone := (hmissing name).2 hname
    obtain ⟨hunresolved, hlocation⟩ := undefined_unresolved b.symbols program.statements l name
    refine ⟨_, Expr.nameValue_of_missing hnone l, Expr.sizeofValue_of_missing hnone l, hlocation, hunresolved, ?_⟩
    rw [hstatements] at hname ⊢
    exact firstLate?_of_not_inScope hname
  · refine Leads.mono (process_resolves settings.surroundings (declarations program.statements) s b) ?_ ?_
    · exact fun _ _ hknows r hr => (hscope r.2).1 (hknows r hr)
    · intro obstacle _ hmisses fault hfault hcategory
      obtain ⟨r, hr, hnone, rfl⟩ := hmisses fault hfault hcategory
      obtain ⟨hunresolved, hlocation⟩ := undefined_unresolved b.symbols program.statements r.1 r.2
      exact ⟨r, hr, (hmissing r.2).1 hnone, hlocation, hunresolved⟩

/-- A constant whose value cannot be found is in scope behind its declaration; the name that it refers to is not. -/
theorem scope_exact_failed :
    let place : Int → Option Location := fun line => some { file := "main", line := line, column := 1 }
    let settings : AssemblySettings := ⟨⟨{}, []⟩, "entry"⟩
    let done : List Statement := [.label (place 1) "entry", .constant (place 2) "a" (.name (place 2) "b")]
    let s : Statement := .instruction (place 3) "psh" (some (.name (place 3) "b"))
    let rest : List Statement := [.constant (place 4) "b" (.integer (place 4) 1)]
    let program : Program := ⟨done ++ s :: rest, "main"⟩
    ∃ start b fault, resolve settings program { journal := {} } = .ok true start ∧
      processAll settings.surroundings (declarations program.statements) done start = .ok () b ∧
      (b.symbols.get? "a").isSome ∧ ¬InScope program.statements done "b" ∧
      Expr.nameValue b.symbols (declarations program.statements) (place 3) "b" = .error fault ∧
      Unresolved program.statements "b" fault := by
  intro place settings done s rest program
  have hresolve : ∃ start, resolve settings program { journal := {} } = .ok true start := ⟨_, rfl⟩
  obtain ⟨start, hstart⟩ := hresolve
  have hprocess : ∃ b, processAll settings.surroundings (declarations program.statements) done start = .ok () b := by
    cases hstart
    exact ⟨_, rfl⟩
  obtain ⟨b, hb⟩ := hprocess
  obtain ⟨hscope, hmissing, -⟩ := scope_exact hstart rfl hb
  have hname : ¬InScope program.statements done "b" := by simp [InScope, program, done, s, rest, lateName?]
  obtain ⟨fault, hfault, -, -, hunresolved, -⟩ := hmissing "b" (place 3) hname
  refine ⟨start, b, fault, hstart, hb, (hscope "a").2 (.inr ?_), hname, hfault, hunresolved⟩
  exact ⟨.constant (place 2) "a" (.name (place 2) "b"), by simp [done], rfl⟩

end

end Assembly

end AvmAssembler
