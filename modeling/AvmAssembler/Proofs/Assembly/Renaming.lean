import Mathlib.Data.Set.Function
import AvmAssembler.Proofs.Correspondence
import AvmAssembler.Proofs.Assembly.Scope

/-! # Renamed programs

A renaming that keeps names apart leaves expressions with the same values and statements with the same effects: the same
code is added, and the same symbol by the other name. Only what is reported of a name depends on it, and whether a fault
ends its pass does not.
-/

namespace AvmAssembler

open Correspondence Diagnostics

/-! ## What is renamed -/

section

variable (f : String → String)

def SizeofTarget.rename : SizeofTarget → SizeofTarget
  | name l n => name l (f n)
  | type l t => type l t

mutual

def Expr.rename : Expr → Expr
  | .name l n => .name l (f n)
  | .sizeof l target => .sizeof l (target.rename f)
  | .apply l sign operands => .apply l sign (Expr.renameAll operands)
  | .fill l value count => .fill l (Expr.rename value) (Expr.rename count)
  | .integer l v => .integer l v
  | .float l bits => .float l bits
  | .string l text => .string l text
  | .type l t => .type l t
  | .foreign l kind => .foreign l kind

def Expr.renameAll : List Expr → List Expr
  | [] => []
  | e :: es => Expr.rename e :: Expr.renameAll es

end

/-- A statement that declares and refers to other names. The mnemonic of an instruction is no such name. -/
def Statement.rename : Statement → Statement
  | .instruction l name argument => .instruction l name (argument.map (Expr.rename f))
  | .label l name => .label l (f name)
  | .constant l name value => .constant l (f name) (value.rename f)
  | .region l name type initializers => .region l (f name) type (Expr.renameAll f initializers)
  | .embedding l name path => .embedding l (f name) path
  | .foreign l kind => .foreign l kind

def Program.rename (p : Program) : Program :=
  { p with statements := p.statements.map (Statement.rename f) }

def AssemblySettings.rename (settings : AssemblySettings) : AssemblySettings :=
  { settings with entryLabel := f settings.entryLabel }

def SymbolTable.rename (table : SymbolTable) : SymbolTable :=
  ⟨table.entries.map fun e => (f e.1, e.2)⟩

def Pending.rename (pending : Pending) : Pending :=
  pending.map fun e => (f e.1, e.2)

end

/-- The names that a statement declares or refers to. -/
def Statement.names (s : Statement) : List String :=
  s.declared?.toList ++ s.references.map Prod.snd

def Program.names (p : Program) : List String :=
  p.statements.flatMap Statement.names

variable {f : String → String} {N : Set String} {α β : Type}

@[simp] theorem Expr.rename_location (e : Expr) : (e.rename f).location = e.location := by
  cases e <;> rfl

theorem Statement.mem_names_of_lateName? {s : Statement} {name : String} (h : s.lateName? = some name) :
    name ∈ s.names := by
  have hdeclared : s.declared? = some name := by
    cases s <;> first | exact h | cases h
  simp [names, hdeclared]

/-! ## Tables -/

section

variable (hf : Set.InjOn f N)

include hf

theorem lookup_rename {entries : List (String × α)} (hentries : ∀ e ∈ entries, e.1 ∈ N) {name : String}
    (hname : name ∈ N) : (entries.map fun e => (f e.1, e.2)).lookup (f name) = entries.lookup name := by
  induction entries with
  | nil => rfl
  | cons e entries ih =>
    obtain ⟨he, hentries⟩ := List.forall_mem_cons.1 hentries
    have hsame : (f name == f e.1) = (name == e.1) := Bool.eq_iff_iff.2 (by simpa using hf.eq_iff hname he)
    rw [List.map_cons, List.lookup_cons, List.lookup_cons, hsame, ih hentries]

namespace SymbolTable

variable {table : SymbolTable} (htable : ∀ e ∈ table.entries, e.1 ∈ N) {name : String} (hname : name ∈ N)

include htable hname

theorem get?_rename : (table.rename f).get? (f name) = table.get? name :=
  lookup_rename hf htable hname

/-- Whether a name is free does not depend on what it is. -/
theorem checkFree_rename (l : Option Location) :
    ((table.rename f).checkFree (f name) l).mapError Fault.isFatal =
      (table.checkFree name l).mapError Fault.isFatal := by
  rw [checkFree, checkFree, get?_rename hf htable hname]
  cases table.get? name <;> rfl

end SymbolTable

end

/-! ## Values -/

theorem bind_mapError {ε ε' : Type} {g : ε → ε'} {r r' : Except ε α} {next next' : α → Except ε β}
    (h : r'.mapError g = r.mapError g) (hnext : ∀ x, (next' x).mapError g = (next x).mapError g) :
    (r' >>= next').mapError g = (r >>= next).mapError g := by
  cases r with
  | error e =>
    cases r' with
    | error e' => exact congrArg Except.error (Except.error.inj h)
    | ok x => cases h
  | ok x =>
    cases r' with
    | error e' => cases h
    | ok x' =>
      obtain rfl : x' = x := Except.ok.inj h
      exact hnext x'

namespace Expr

variable {table : SymbolTable} {pending pending' : Pending}

/-- Neither a name that is used too early nor one that is not declared ends a phase. -/
theorem undefined_isFatal (l : Option Location) (name : String) :
    (undefined table pending l name).isFatal = false := by
  unfold undefined
  split <;> rfl

theorem nameValue_rename (hf : Set.InjOn f N) (htable : ∀ e ∈ table.entries, e.1 ∈ N) {name : String} (hname : name ∈ N)
    (l : Option Location) :
    (nameValue (table.rename f) pending' l (f name)).mapError Fault.isFatal =
      (nameValue table pending l name).mapError Fault.isFatal := by
  rw [nameValue, nameValue, SymbolTable.get?_rename hf htable hname]
  cases table.get? name with
  | some s => rfl
  | none => simp only [Except.mapError, undefined_isFatal]

theorem sizeofValue_rename (hf : Set.InjOn f N) (htable : ∀ e ∈ table.entries, e.1 ∈ N) {target : SizeofTarget}
    {l : Option Location} (hnames : ∀ r ∈ (Expr.sizeof l target).references, r.2 ∈ N) :
    (sizeofValue (table.rename f) pending' (target.rename f)).mapError Fault.isFatal =
      (sizeofValue table pending target).mapError Fault.isFatal := by
  cases target with
  | type l t => rfl
  | name l n =>
    have hname : n ∈ N := hnames (l, n) (by simp [references])
    rw [SizeofTarget.rename, sizeofValue, sizeofValue, SymbolTable.get?_rename hf htable hname]
    rcases table.get? n with _ | ⟨l', _ | _ | _⟩
    · simp only [Except.mapError, undefined_isFatal]
    all_goals rfl

mutual

/-- A renamed expression has the same value, or it fails with a fault that ends the phase just if the fault of the
expression does. -/
theorem value_rename (hf : Set.InjOn f N) (htable : ∀ e ∈ table.entries, e.1 ∈ N) (e : Expr)
    (hnames : ∀ r ∈ e.references, r.2 ∈ N) :
    ((e.rename f).value (table.rename f) pending').mapError Fault.isFatal =
      (e.value table pending).mapError Fault.isFatal := by
  match e with
  | .integer .. | .float .. | .string .. | .type .. | .fill .. | .foreign .. => rfl
  | .name l n => exact nameValue_rename hf htable (hnames (l, n) (by simp [references])) l
  | .sizeof l target => exact sizeofValue_rename hf htable hnames
  | .apply l sign [] => rfl
  | .apply l sign [first] => rfl
  | .apply l sign (first :: second :: rest) =>
    have hfirst := value_rename hf htable first fun r hr => hnames r (by simp [references, allReferences, hr])
    have hrest : ∀ r ∈ allReferences (second :: rest), r.2 ∈ N :=
      fun r hr => hnames r (by rw [references, allReferences]; exact List.mem_append_right _ hr)
    rw [Expr.rename, renameAll, renameAll, value, value]
    exact bind_mapError hfirst fun x => applyAll_rename hf htable sign x (second :: rest) hrest

theorem applyAll_rename (hf : Set.InjOn f N) (htable : ∀ e ∈ table.entries, e.1 ∈ N) (sign : OperatorSign) (x : Int)
    (operands : List Expr) (hnames : ∀ r ∈ allReferences operands, r.2 ∈ N) :
    (applyAll (table.rename f) pending' sign x (renameAll f operands)).mapError Fault.isFatal =
      (applyAll table pending sign x operands).mapError Fault.isFatal := by
  match operands with
  | [] => rfl
  | operand :: rest =>
    have hoperand := value_rename hf htable operand fun r hr => hnames r (by simp [allReferences, hr])
    have hrest : ∀ r ∈ allReferences rest, r.2 ∈ N := fun r hr => hnames r (by simp [allReferences, hr])
    rw [renameAll, applyAll, applyAll]
    refine bind_mapError hoperand fun y => ?_
    cases sign.apply x y with
    | ok r => exact applyAll_rename hf htable sign r rest hrest
    | error cause => rfl

end

end Expr

namespace Assembly

/-! ## Statements -/

/-- The later assembly has the symbols of the earlier one by other names, and the same code and as many errors. -/
structure Renamed (f : String → String) (N : Set String) (a b : Assembly) : Prop where
  symbols : b.symbols = a.symbols.rename f
  kept : ∀ e ∈ a.symbols.entries, e.1 ∈ N
  entryPoint : b.entryPoint = a.entryPoint
  memory : b.memory = a.memory
  records : b.records = a.records
  errors : b.errors = a.errors

/-- Faults of statements correspond if both end the pass or neither does. -/
abbrev byNames (f : String → String) (N : Set String) : Correspondence Fault Assembly where
  same := Renamed f N
  failed fault fault' := fault'.isFatal = fault.isFatal

/-- Two faults correspond as those of statements, and a search to itself. -/
def AlikeByNames : Obstacle → Obstacle → Prop
  | .fault fault, .fault fault' => fault'.isFatal = fault.isFatal
  | .search e, .search e' => e' = e
  | _, _ => False

theorem alikeByNames_fault (fault fault' : Fault) (h : fault'.isFatal = fault.isFatal) :
    AlikeByNames (.fault fault) (.fault fault') := h

theorem alikeByNames_refl (obstacle : Obstacle) : AlikeByNames obstacle obstacle := by
  cases obstacle <;> rfl

abbrev attemptByNames (f : String → String) (N : Set String) : Correspondence Obstacle Assembly where
  same := Renamed f N
  failed := AlikeByNames

variable {pending pending' : Pending}

theorem orFault_rename {r r' : Except Fault α} (h : r'.mapError Fault.isFatal = r.mapError Fault.isFatal) :
    (byNames f N).Mirrors Eq (orFault r) (orFault r') := by
  cases r with
  | error fault =>
    cases r' with
    | error fault' => exact .throw (Except.error.inj h)
    | ok x => cases h
  | ok x =>
    cases r' with
    | error fault' => cases h
    | ok x' => exact .pure (Except.ok.inj h).symm

theorem element_rename (word : Nat) (type : ElementType) (l : Option Location) :
    (byNames f N).Mirrors Eq (element word type l) (element word type l) := by
  have hwarn (ds : Diagnostics) (message : String) : (ds.warn ⟨.warning, message, l⟩).errorCount = ds.errorCount :=
    (GrownBy.warn trivial).errorCount_eq
  unfold element
  dsimp only
  split
  · refine Mirrors.bind (.modify fun a b h => ?_) fun _ _ _ => .pure rfl
    exact ⟨h.symbols, h.kept, h.entryPoint, h.memory, h.records,
      (hwarn _ _).trans (h.errors.trans (hwarn _ _).symm)⟩
  · exact .pure rfl

theorem elements_rename (type : ElementType) (l : Option Location) (words : List Nat) :
    (byNames f N).Mirrors Eq (elements type l words) (elements type l words) := by
  induction words with
  | nil => exact .pure rfl
  | cons word words ih =>
    refine (element_rename word type l).bind ?_
    rintro bytes _ rfl
    refine ih.bind ?_
    rintro more _ rfl
    exact .pure rfl

section

variable (hf : Set.InjOn f N)

include hf

theorem valueOf_rename {e : Expr} (hnames : ∀ r ∈ e.references, r.2 ∈ N) :
    (byNames f N).Mirrors Eq (valueOf pending e) (valueOf pending' (e.rename f)) := by
  refine .get fun a b h => ?_
  rw [h.symbols]
  refine (orFault_rename (Expr.value_rename hf h.kept e hnames)).bind ?_
  rintro v _ rfl
  exact .pure rfl

theorem initializerBytes_rename (type : ElementType) {e : Expr} (hnames : ∀ r ∈ e.references, r.2 ∈ N) :
    (byNames f N).Mirrors Eq (initializerBytes pending type e) (initializerBytes pending' type (e.rename f)) := by
  have hscalar : (byNames f N).Mirrors Eq (do let word ← valueOf pending e; element word type e.location)
      (do let word ← valueOf pending' (e.rename f); element word type (e.rename f).location) := by
    refine (valueOf_rename hf hnames).bind ?_
    rintro word _ rfl
    rw [e.rename_location]
    exact element_rename word type e.location
  cases e with
  | fill l value count =>
    refine (valueOf_rename hf fun r hr => hnames r (List.mem_append_left _ hr)).bind ?_
    rintro word _ rfl
    rw [Expr.rename_location, Expr.rename_location]
    refine (element_rename word type value.location).bind ?_
    rintro bytes _ rfl
    refine (valueOf_rename hf fun r hr => hnames r (List.mem_append_right _ hr)).bind ?_
    rintro times _ rfl
    exact .ite (.throw_bind rfl) (.ite (.throw_bind rfl) (.pure rfl))
  | string l text => exact elements_rename type l _
  | integer | float | name | type | sizeof | apply | foreign => exact hscalar

theorem initializersBytes_rename (type : ElementType) {es : List Expr}
    (hnames : ∀ r ∈ Expr.allReferences es, r.2 ∈ N) :
    (byNames f N).Mirrors Eq (initializersBytes pending type es)
      (initializersBytes pending' type (Expr.renameAll f es)) := by
  induction es with
  | nil => exact .pure rfl
  | cons e es ih =>
    refine (initializerBytes_rename hf type fun r hr => hnames r (List.mem_append_left _ hr)).bind ?_
    rintro bytes _ rfl
    refine (ih fun r hr => hnames r (List.mem_append_right _ hr)).bind ?_
    rintro more _ rfl
    exact .pure rfl

theorem appendInstruction_rename (l : Option Location) (name : String) {argument : Option Expr}
    (hnames : ∀ e ∈ argument, ∀ r ∈ e.references, r.2 ∈ N) :
    (byNames f N).Mirrors Eq (appendInstruction pending l name argument)
      (appendInstruction pending' l name (argument.map (Expr.rename f))) := by
  have happend (r : Record) : (byNames f N).Mirrors Eq
      (modify fun a => { a with records := a.records ++ [r] }) (modify fun a => { a with records := a.records ++ [r] }) :=
    .modify fun a b h => ⟨h.symbols, h.kept, h.entryPoint, h.memory, congrArg (· ++ [r]) h.records, h.errors⟩
  unfold appendInstruction
  cases InstructionSet.byName? name with
  | none => exact .throw rfl
  | some m =>
    dsimp only
    cases m.takesArgument <;> cases argument with
    | none => first
      | exact .throw rfl
      | exact happend _
    | some e => first
      | exact .throw rfl
      | refine (valueOf_rename hf (hnames e rfl)).bind ?_
        rintro word _ rfl
        exact happend _

section

variable {name : String} (hname : name ∈ N)

include hname

theorem checkFree_rename (l : Option Location) :
    (byNames f N).Mirrors Eq (checkFree name l) (checkFree (f name) l) := by
  refine .get fun a b h => ?_
  rw [h.symbols]
  exact orFault_rename (SymbolTable.checkFree_rename hf h.kept hname l)

theorem define_rename (symbol : Symbol) : (byNames f N).Mirrors Eq (define name symbol) (define (f name) symbol) := by
  refine .get fun a a' h => ?_
  have hget := SymbolTable.get?_rename hf h.kept hname
  rw [h.symbols]
  simp only [SymbolTable.define, SymbolTable.checkFree, hget]
  cases a.symbols.get? name with
  | some first => exact .throw_bind rfl
  | none =>
    refine .modify fun b b' hb => ⟨?_, ?_, hb.entryPoint, hb.memory, hb.records, hb.errors⟩
    · simp [SymbolTable.push, SymbolTable.rename]
    · exact List.forall_mem_append.2 ⟨h.kept, by simpa using hname⟩

theorem orBind_rename {step step' : Processing α} (symbol : Symbol) (h : (byNames f N).Mirrors Eq step step') :
    (byNames f N).Mirrors Eq (orBind name symbol step) (orBind (f name) symbol step') := by
  refine .of_cases fun a a' haa' => ?_
  unfold orBind
  rcases h.cases haa' with ⟨x, b, y, b', hs, hs', rfl, hb⟩ | ⟨fault, b, fault', b', hs, hs', hfatal, hb⟩
  · simp only [hs, hs']
    exact .inl ⟨x, b, x, b', rfl, rfl, rfl, hb⟩
  · simp only [hs, hs']
    rcases (define_rename hf hname symbol).cases hb with
      ⟨_, d, _, d', hd, hd', -, hsame⟩ | ⟨e, d, e', d', hd, hd', hfatal', hsame⟩
    · simp only [hd, hd']
      exact .inr ⟨fault, d, fault', d', rfl, rfl, hfatal, hsame⟩
    · simp only [hd, hd']
      exact .inr ⟨e, d, e', d', rfl, rfl, hfatal', hsame⟩

theorem appendRegion_rename (l : Option Location) (bytes : List UInt8) :
    (byNames f N).Mirrors Eq (appendRegion name l bytes) (appendRegion (f name) l bytes) := by
  refine .get fun a b h => ?_
  rw [h.memory]
  refine Mirrors.bind (.modify fun c d hcd => ?_) fun _ _ _ => define_rename hf hname _
  exact ⟨hcd.symbols, hcd.kept, hcd.entryPoint, congrArg (· ++ bytes) hcd.memory, hcd.records, hcd.errors⟩

theorem bindConstant_rename (l : Option Location) {e : Expr} (hnames : ∀ r ∈ e.references, r.2 ∈ N) :
    (byNames f N).Mirrors Eq (bindConstant pending l name e) (bindConstant pending' l (f name) (e.rename f)) := by
  refine (checkFree_rename hf hname l).bind fun _ _ _ => ?_
  refine (orBind_rename hf hname ⟨l, .constant 0⟩ (valueOf_rename hf hnames)).bind ?_
  rintro word _ rfl
  exact define_rename hf hname ⟨l, .constant word⟩

theorem bindRegion_rename (l : Option Location) (type : ElementType) {es : List Expr}
    (hnames : ∀ r ∈ Expr.allReferences es, r.2 ∈ N) :
    (byNames f N).Mirrors Eq (bindRegion pending l name type es)
      (bindRegion pending' l (f name) type (Expr.renameAll f es)) := by
  refine (checkFree_rename hf hname l).bind fun _ _ _ => .get fun a b h => ?_
  rw [h.memory]
  refine (orBind_rename hf hname ⟨l, .region a.memory.length 0⟩ (initializersBytes_rename hf type hnames)).bind ?_
  rintro bytes _ rfl
  exact appendRegion_rename hf hname l bytes

theorem embed_rename (env : Surroundings) (l : Option Location) (path : String) :
    (attemptByNames f N).Mirrors Eq (embed env l name path) (embed env l (f name) path) := by
  refine ((checkFree_rename hf hname l).adaptExcept alikeByNames_fault).bind fun _ _ _ => ?_
  split
  · rename_i obstacle _
    exact .throw (alikeByNames_refl obstacle)
  · rename_i resolved bytes _
    refine Mirrors.adaptExcept (.get fun a b h => (appendRegion_rename hf hname l bytes).bind fun _ _ _ => ?_)
      alikeByNames_fault
    rw [h.memory]
    exact .modify fun c d hcd => ⟨hcd.symbols, hcd.kept, hcd.entryPoint, hcd.memory, hcd.records, hcd.errors⟩

end

theorem process_rename (env : Surroundings) {s : Statement} (hnames : ∀ n ∈ s.names, n ∈ N) :
    (attemptByNames f N).Mirrors Eq (process env pending s) (process env pending' (s.rename f)) := by
  have hreferences : ∀ r ∈ s.references, r.2 ∈ N :=
    fun r hr => hnames r.2 (List.mem_append_right _ (List.mem_map_of_mem hr))
  have hdeclared : ∀ n ∈ s.declared?, n ∈ N := fun n hn => hnames n (by simp [Statement.names, Option.mem_def.1 hn])
  cases s with
  | label => exact .pure rfl
  | instruction l name argument =>
    refine Mirrors.adaptExcept (appendInstruction_rename hf l name ?_) alikeByNames_fault
    rintro e rfl
    exact hreferences
  | constant l name e =>
    exact (bindConstant_rename hf (hdeclared name rfl) l hreferences).adaptExcept alikeByNames_fault
  | region l name type es =>
    exact (bindRegion_rename hf (hdeclared name rfl) l type hreferences).adaptExcept alikeByNames_fault
  | embedding l name path => exact embed_rename hf (hdeclared name rfl) env l path
  | foreign l kind => exact .throw rfl

end

end Assembly

end AvmAssembler
