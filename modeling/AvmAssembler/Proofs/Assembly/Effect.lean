import AvmAssembler.Assembly
import AvmAssembler.Proofs.Assembly.Faults
import AvmAssembler.Proofs.Reports

/-! # Effects of statements

What one statement of the second pass adds to an assembly: symbols, memory and records, all of them behind what is
there. A statement that fails adds its name at most, and fails for reasons of its own unless its name is taken. Besides
this only the journal changes, and nothing but warnings is recorded before the statement has ended.
-/

namespace AvmAssembler

namespace Assembly

/-! ## States that differ in their journals -/

def errors (a : Assembly) : Nat := a.journal.diagnostics.errorCount

/-- The later state differs from the earlier one in its journal only, and there in warnings. -/
structure Quiet (a b : Assembly) : Prop where
  eq : b = { a with journal := b.journal }
  warned : Diagnostics.GrownBy Report.IsWarning a.journal.diagnostics b.journal.diagnostics

namespace Quiet

variable {a b c : Assembly}

theorem refl (a : Assembly) : Quiet a a := ⟨rfl, .refl _⟩

theorem trans (hab : Quiet a b) (hbc : Quiet b c) : Quiet a c := by
  refine ⟨?_, hab.warned.trans hbc.warned⟩
  rw [hbc.eq, hab.eq]

theorem errors (h : Quiet a b) : b.errors = a.errors := h.warned.errorCount_eq

theorem symbols (h : Quiet a b) : b.symbols = a.symbols := by rw [h.eq]

theorem entryPoint (h : Quiet a b) : b.entryPoint = a.entryPoint := by rw [h.eq]

theorem memory (h : Quiet a b) : b.memory = a.memory := by rw [h.eq]

theorem records (h : Quiet a b) : b.records = a.records := by rw [h.eq]

end Quiet

/-! ## Words and elements -/

/-- Processing a statement whose name is free can fail in this way. -/
def Admits (a : Assembly) (fault : Fault) : Prop :=
  a.symbols.HasSizes → fault.cause.IsOfStatement

theorem Quiet.admits {a b : Assembly} {fault : Fault} (h : Quiet a b) (hfault : b.Admits fault) : a.Admits fault :=
  fun hsizes => hfault (h.symbols ▸ hsizes)

section

variable (pending : Pending) (type : ElementType) (l : Option Location) (a : Assembly)

theorem orFault_leads {α : Type} (r : Except Fault α) :
    Leads (orFault r) a (fun x b => b = a ∧ r = .ok x) (fun fault b => b = a ∧ r = .error fault) := by
  cases r with
  | ok x => exact Leads.of_pure ⟨rfl, rfl⟩
  | error fault => exact Leads.of_throw ⟨rfl, rfl⟩

theorem valueOf_leads (e : Expr) :
    Leads (valueOf pending e) a (fun w b => b = a ∧ e.word? a.symbols = some w)
      (fun fault b => b = a ∧ a.Admits fault) := by
  refine Leads.of_get (Leads.of_bind (orFault_leads a _) ?_ ?_)
  · rintro v _ ⟨rfl, hv⟩
    exact Leads.of_pure ⟨rfl, Expr.word?_of_value hv⟩
  · rintro fault _ ⟨rfl, hfault⟩
    exact ⟨rfl, fun hsizes => (Expr.value_error hsizes hfault).isOfStatement⟩

theorem element_leads (word : Nat) :
    Leads (element word type l) a (fun bytes b => Quiet a b ∧ bytes = bigEndian type.size word)
      (fun _ _ => False) := by
  unfold element
  dsimp only
  split
  · exact Leads.of_modify_bind (Leads.of_pure ⟨⟨rfl, .warn trivial⟩, rfl⟩)
  · exact Leads.of_pure ⟨.refl a, rfl⟩

theorem elements_leads (words : List Nat) :
    Leads (elements type l words) a
      (fun bytes b => Quiet a b ∧ bytes = words.flatMap (bigEndian type.size)) (fun _ _ => False) := by
  induction words generalizing a with
  | nil => exact Leads.of_pure ⟨.refl a, rfl⟩
  | cons word words ih =>
    refine Leads.of_bind (element_leads type l a word) ?_ fun _ _ h => h
    rintro bytes b ⟨hb, rfl⟩
    refine Leads.of_bind (ih b) ?_ fun _ _ h => h
    rintro more c ⟨hc, rfl⟩
    exact Leads.of_pure ⟨hb.trans hc, by simp⟩

theorem initializerBytes_leads (e : Expr) :
    Leads (initializerBytes pending type e) a
      (fun bytes b => Quiet a b ∧ e.encoding? a.symbols type = some bytes)
      (fun fault b => Quiet a b ∧ a.Admits fault) := by
  have hscalar : Leads (do let word ← valueOf pending e; element word type e.location) a
      (fun bytes b => Quiet a b ∧ (e.word? a.symbols).map (bigEndian type.size) = some bytes)
      (fun fault b => Quiet a b ∧ a.Admits fault) := by
    refine Leads.of_bind (valueOf_leads pending a e) ?_ fun _ _ h => ⟨h.1 ▸ .refl a, h.2⟩
    rintro word _ ⟨rfl, hword⟩
    refine (element_leads type e.location _ word).mono ?_ fun _ _ h => h.elim
    rintro bytes b ⟨hb, rfl⟩
    exact ⟨hb, by rw [hword, Option.map_some]⟩
  cases e with
  | fill location value count =>
    refine Leads.of_bind (valueOf_leads pending a value) ?_ fun _ _ h => ⟨h.1 ▸ .refl a, h.2⟩
    rintro word _ ⟨rfl, hword⟩
    refine Leads.of_bind (element_leads type value.location _ word) ?_ fun _ _ h => h.elim
    rintro bytes b ⟨hb, rfl⟩
    refine Leads.of_bind (valueOf_leads pending b count) ?_ fun _ _ h => ⟨h.1 ▸ hb, hb.admits h.2⟩
    rintro times _ ⟨rfl, htimes⟩
    refine Leads.of_ite (Leads.of_throw_bind ⟨hb, fun _ => trivial⟩) ?_
    refine Leads.of_ite (Leads.of_throw_bind ⟨hb, fun _ => trivial⟩) ?_
    refine Leads.of_pure ⟨hb, ?_⟩
    rw [hb.symbols] at htimes
    simp [Expr.encoding?, hword, htimes]
  | string location text =>
    refine (elements_leads type location a _).mono ?_ fun _ _ h => h.elim
    rintro bytes b ⟨hb, rfl⟩
    exact ⟨hb, by simp [Expr.encoding?, List.flatMap_map]⟩
  | _ => exact hscalar

end

/-! ## Growth -/

/-- What is added behind the symbols, the memory and the records of an assembly. -/
structure Growth where
  entries : List (String × Symbol) := []
  bytes : List UInt8 := []
  records : List Record := []

def grow (a : Assembly) (g : Growth) : Assembly :=
  { a with
    symbols := ⟨a.symbols.entries ++ g.entries⟩
    memory := a.memory ++ g.bytes
    records := a.records ++ g.records }

section

variable (a : Assembly) (g : Growth)

@[simp] theorem grow_entries : (a.grow g).symbols.entries = a.symbols.entries ++ g.entries := rfl

@[simp] theorem grow_memory : (a.grow g).memory = a.memory ++ g.bytes := rfl

@[simp] theorem grow_records : (a.grow g).records = a.records ++ g.records := rfl

@[simp] theorem grow_entryPoint : (a.grow g).entryPoint = a.entryPoint := rfl

@[simp] theorem grow_nothing : a.grow {} = a := by
  simp [grow]

theorem get?_grow_name (a : Assembly) (name other : String) (symbol : Symbol) (bytes : List UInt8) :
    (a.grow { entries := [(name, symbol)], bytes := bytes }).symbols.get? other =
      (a.symbols.get? other).or (if other = name then some symbol else none) :=
  SymbolTable.get?_push a.symbols name symbol other

theorem Quiet.grow {a b : Assembly} (h : Quiet a b) (g : Growth) : Quiet (a.grow g) (b.grow g) := by
  refine ⟨?_, h.warned⟩
  rw [h.eq]
  rfl

end

/-- What a statement adds when it succeeds: a name with its meaning, the bytes of a region, the record of an
instruction. -/
inductive Effect (env : Surroundings) (a : Assembly) : Statement → Growth → Prop
  | label (l name) : Effect env a (.label l name) {}
  | nullary {l name m} : InstructionSet.byName? name = some m → m.takesArgument = false →
      Effect env a (.instruction l name none) { records := [⟨m.opcode, 0⟩] }
  | unary {l name m e} {w : Nat} : InstructionSet.byName? name = some m → m.takesArgument = true →
      e.word? a.symbols = some w →
      Effect env a (.instruction l name (some e)) { records := [⟨m.opcode, w⟩] }
  | constant {l name e} {w : Nat} : a.symbols.get? name = none → e.word? a.symbols = some w →
      Effect env a (.constant l name e) { entries := [(name, ⟨l, .constant w⟩)] }
  | region {l name type es bytes} : a.symbols.get? name = none →
      Expr.encodings? a.symbols type es = some bytes →
      Effect env a (.region l name type es)
        { entries := [(name, ⟨l, .region a.memory.length bytes.length⟩)], bytes := bytes }
  | embedding {l name path resolved bytes} : a.symbols.get? name = none →
      env.tree.find? path ((l.map Location.file).getD FileTree.inputName) env.searchPaths =
        .ok (some resolved) →
      env.tree.readBytes resolved = .ok bytes →
      Effect env a (.embedding l name path)
        { entries := [(name, ⟨l, .region a.memory.length bytes.length⟩)], bytes := bytes }

/-- How a statement fails and what it adds then: a constant or a region whose name is free is bound to nothing. -/
inductive Failure (a : Assembly) : Statement → Fault → Growth → Prop
  | taken {s name symbol} : s.lateName? = some name → a.symbols.get? name = some symbol →
      Failure a s ⟨.redefinition name symbol.location, s.location⟩ {}
  | constant {l name e fault} : a.symbols.get? name = none → a.Admits fault →
      Failure a (.constant l name e) fault { entries := [(name, ⟨l, .constant 0⟩)] }
  | region {l name type es fault} : a.symbols.get? name = none → a.Admits fault →
      Failure a (.region l name type es) fault { entries := [(name, ⟨l, .region a.memory.length 0⟩)] }
  | embedding {l name path fault} : fault.isFatal = true → a.Admits fault →
      Failure a (.embedding l name path) fault {}
  | nameless {s fault} : s.lateName? = none → a.Admits fault → Failure a s fault {}

/-- A statement fails with a fault and leaves what it adds then; otherwise the state is as before. -/
def Fails (a : Assembly) (s : Statement) (fault : Fault) (b : Assembly) : Prop :=
  ∃ g, Failure a s fault g ∧ Quiet (a.grow g) b

theorem Fails.of_failure {a : Assembly} {s : Statement} {fault : Fault} (h : Failure a s fault {}) :
    Fails a s fault a :=
  ⟨_, h, by simpa using Quiet.refl a⟩

/-- The file of an embedding is looked for, and the search is cut short. -/
def Unsearched (env : Surroundings) (s : Statement) (e : SearchError) : Prop :=
  ∃ l name path, s = .embedding l name path ∧
    env.tree.find? path ((l.map Location.file).getD FileTree.inputName) env.searchPaths = .error e

/-- What keeps a statement from being processed, and what it leaves then: it fails, or the search for its file is cut
short and the state is as before. -/
def Stops (env : Surroundings) (a : Assembly) (s : Statement) : Obstacle → Assembly → Prop
  | .fault fault, b => Fails a s fault b
  | .search e, b => b = a ∧ Unsearched env s e

section

variable {a b : Assembly} {name : String} {symbol : Symbol} (l : Option Location)

/-- A statement whose name is taken fails before it adds anything. -/
theorem checkFree_leads {s : Statement} (hname : s.lateName? = some name) :
    Leads (checkFree name s.location) a (fun _ b => b = a ∧ a.symbols.get? name = none) (Fails a s) := by
  refine (Leads.of_get (orFault_leads a (a.symbols.checkFree name s.location))).mono ?_ ?_
  · rintro _ _ ⟨rfl, hfree⟩
    exact ⟨rfl, SymbolTable.checkFree_eq_ok.1 hfree⟩
  · rintro fault _ ⟨rfl, htaken⟩
    obtain ⟨symbol, hget, rfl⟩ := SymbolTable.checkFree_eq_error.1 htaken
    exact .of_failure (.taken hname hget)

theorem define_of_free (hfree : a.symbols.get? name = none) :
    define name symbol a = .ok () (a.grow { entries := [(name, symbol)] }) := by
  have hdefine : a.symbols.define name symbol = .ok (a.symbols.push name symbol) :=
    SymbolTable.define_eq_ok.2 ⟨hfree, rfl⟩
  have hfault : orFault (a.symbols.define name symbol) a = .ok (a.symbols.push name symbol) a := by
    rw [hdefine]
    rfl
  rw [define, get_bind, bind_of_ok hfault]
  simp [grow, SymbolTable.push]

theorem orBind_leads {α : Type} {step : Processing α} {ok : α → Assembly → Prop} {failed : Fault → Prop}
    (hfree : a.symbols.get? name = none) (h : Leads step a ok fun fault b => Quiet a b ∧ failed fault) :
    Leads (orBind name symbol step) a ok
      fun fault b => Quiet (a.grow { entries := [(name, symbol)] }) b ∧ failed fault := by
  cases hs : step a with
  | ok x b =>
    refine Leads.of_ok (x := x) (t := b) ?_ (h.at_ok hs)
    simp only [orBind, hs]
  | error fault b =>
    obtain ⟨hquiet, hfailed⟩ := h.at_error hs
    have hdefine : define name symbol b = .ok () (b.grow { entries := [(name, symbol)] }) :=
      define_of_free (hquiet.symbols ▸ hfree)
    refine Leads.of_error (e := fault) (t := b.grow { entries := [(name, symbol)] }) ?_ ⟨hquiet.grow _, hfailed⟩
    simp only [orBind, hs, hdefine]

theorem appendRegion_of_free (bytes : List UInt8) (hfree : a.symbols.get? name = none) :
    appendRegion name l bytes a =
      .ok () (a.grow { entries := [(name, ⟨l, .region a.memory.length bytes.length⟩)], bytes := bytes }) := by
  have hdefine : appendRegion name l bytes a =
      define name ⟨l, .region a.memory.length bytes.length⟩ { a with memory := a.memory ++ bytes } := rfl
  have hfree' : { a with memory := a.memory ++ bytes }.symbols.get? name = none := hfree
  rw [hdefine, define_of_free hfree']
  simp [grow]

theorem appendInstruction_leads (env : Surroundings) (pending : Pending) (a : Assembly) (name : String)
    (argument : Option Expr) :
    Leads (appendInstruction pending l name argument) a
      (fun _ b => ∃ g, Effect env a (.instruction l name argument) g ∧ b = a.grow g)
      (fun fault b => b = a ∧ a.Admits fault) := by
  unfold appendInstruction
  split
  · exact Leads.of_throw ⟨rfl, fun _ => trivial⟩
  · rename_i m hname
    cases harity : m.takesArgument with
    | false =>
      cases argument with
      | none => exact Leads.of_modify ⟨_, .nullary hname harity, by simp [grow]⟩
      | some e => exact Leads.of_throw ⟨rfl, fun _ => trivial⟩
    | true =>
      cases argument with
      | none => exact Leads.of_throw ⟨rfl, fun _ => trivial⟩
      | some e =>
        refine Leads.of_bind (valueOf_leads pending a e) ?_ fun _ _ h => h
        rintro w _ ⟨rfl, hw⟩
        exact Leads.of_modify ⟨_, .unary hname harity hw, by simp [grow]⟩

theorem bindConstant_leads (env : Surroundings) (pending : Pending) (a : Assembly) (name : String) (e : Expr) :
    Leads (bindConstant pending l name e) a
      (fun _ b => ∃ g, Effect env a (.constant l name e) g ∧ b = a.grow g)
      (Fails a (.constant l name e)) := by
  refine Leads.of_bind (checkFree_leads (s := .constant l name e) rfl) ?_ fun _ _ h => h
  rintro _ b ⟨rfl, hfree⟩
  have hvalue : Leads (valueOf pending e) b (fun w c => c = b ∧ e.word? b.symbols = some w)
      (fun fault c => Quiet b c ∧ b.Admits fault) :=
    (valueOf_leads pending b e).mono (fun _ _ h => h) fun _ _ h => ⟨h.1 ▸ .refl b, h.2⟩
  refine Leads.of_bind (orBind_leads hfree hvalue) ?_ fun _ _ h => ⟨_, .constant hfree h.2, h.1⟩
  rintro w _ ⟨rfl, hw⟩
  exact Leads.of_ok (define_of_free hfree) ⟨_, .constant hfree hw, rfl⟩

theorem initializersBytes_leads (pending : Pending) (type : ElementType) (es : List Expr) (a : Assembly) :
    Leads (initializersBytes pending type es) a
      (fun bytes b => Quiet a b ∧ Expr.encodings? a.symbols type es = some bytes)
      (fun fault b => Quiet a b ∧ a.Admits fault) := by
  induction es generalizing a with
  | nil => exact Leads.of_pure ⟨.refl a, rfl⟩
  | cons e es ih =>
    refine Leads.of_bind (initializerBytes_leads pending type a e) ?_ fun _ _ h => h
    rintro bytes b ⟨hb, hbytes⟩
    refine Leads.of_bind (ih b) ?_ fun _ _ h => ⟨hb.trans h.1, hb.admits h.2⟩
    rintro more c ⟨hc, hmore⟩
    rw [hb.symbols] at hmore
    exact Leads.of_pure ⟨hb.trans hc, by simp [Expr.encodings?, hbytes, hmore]⟩

theorem bindRegion_leads (env : Surroundings) (pending : Pending) (a : Assembly) (name : String)
    (type : ElementType) (es : List Expr) :
    Leads (bindRegion pending l name type es) a
      (fun _ b => ∃ g, Effect env a (.region l name type es) g ∧ Quiet (a.grow g) b)
      (Fails a (.region l name type es)) := by
  refine Leads.of_bind (checkFree_leads (s := .region l name type es) rfl) ?_ fun _ _ h => h
  rintro _ a ⟨rfl, hfree⟩
  apply Leads.of_get
  refine Leads.of_bind (orBind_leads hfree (initializersBytes_leads pending type es a)) ?_
    fun _ _ h => ⟨_, .region hfree h.2, h.1⟩
  rintro bytes b ⟨hb, hbytes⟩
  refine Leads.of_ok (appendRegion_of_free l bytes (hb.symbols ▸ hfree)) ?_
  rw [hb.memory]
  exact ⟨_, .region hfree hbytes, hb.grow _⟩

theorem openEmbedded_eq_ok {env : Surroundings} {path : String} {resolved : Path} {bytes : List UInt8}
    (h : openEmbedded env l path = .ok (resolved, bytes)) :
    env.tree.find? path ((l.map Location.file).getD FileTree.inputName) env.searchPaths = .ok (some resolved) ∧
      env.tree.readBytes resolved = .ok bytes := by
  unfold openEmbedded at h
  dsimp only at h
  split at h
  · cases h
  · cases h
  · split at h
    · cases h
    · cases h
      exact ⟨‹_›, ‹_›⟩

theorem openEmbedded_eq_error {env : Surroundings} {path : String} {obstacle : Obstacle}
    (h : openEmbedded env l path = .error obstacle) :
    (∃ failure, obstacle = .fault ⟨.embedding path failure, l⟩) ∨
      ∃ e, obstacle = .search e ∧
        env.tree.find? path ((l.map Location.file).getD FileTree.inputName) env.searchPaths = .error e := by
  unfold openEmbedded at h
  dsimp only at h
  split at h
  · cases h
    exact .inr ⟨_, rfl, ‹_›⟩
  · cases h
    exact .inl ⟨_, rfl⟩
  · split at h
    · cases h
      exact .inl ⟨_, rfl⟩
    · cases h

theorem embed_leads (env : Surroundings) (a : Assembly) (name path : String) :
    Leads (embed env l name path) a
      (fun _ b => ∃ g, Effect env a (.embedding l name path) g ∧ Quiet (a.grow g) b)
      (Stops env a (.embedding l name path)) := by
  have hfailed : ∀ fault b, Fails a (.embedding l name path) fault b →
      Stops env a (.embedding l name path) (.fault fault) b := fun _ _ h => h
  refine Leads.of_bind ((checkFree_leads (s := .embedding l name path) rfl).adaptExcept hfailed) ?_ fun _ _ h => h
  rintro _ _ ⟨rfl, hfree⟩
  cases hopen : openEmbedded env l path with
  | error obstacle =>
    refine Leads.of_throw ?_
    rcases openEmbedded_eq_error l hopen with ⟨failure, rfl⟩ | ⟨e, rfl, hfind⟩
    · exact Fails.of_failure (.embedding rfl fun _ => trivial)
    · exact ⟨rfl, l, name, path, rfl, hfind⟩
  | ok file =>
    obtain ⟨resolved, bytes⟩ := file
    obtain ⟨hfind, hread⟩ := openEmbedded_eq_ok l hopen
    refine Leads.of_ok (adaptExcept_eq_ok.2 (bind_of_ok (appendRegion_of_free l bytes hfree))) ?_
    exact ⟨_, .embedding hfree hfind hread, rfl, .refl _⟩

/-- Every statement either has its effect or is stopped; the rest of the state is as before. -/
theorem process_leads (env : Surroundings) (pending : Pending) (s : Statement) (a : Assembly) :
    Leads (process env pending s) a (fun _ b => ∃ g, Effect env a s g ∧ Quiet (a.grow g) b) (Stops env a s) := by
  cases s with
  | label l name => exact Leads.of_pure ⟨_, .label l name, by simpa using Quiet.refl a⟩
  | instruction l name argument =>
    refine Leads.adaptExcept ((appendInstruction_leads l env pending a name argument).mono ?_ fun _ _ h => h) ?_
    · rintro _ _ ⟨g, hg, rfl⟩
      exact ⟨g, hg, .refl _⟩
    · rintro fault _ ⟨rfl, hfault⟩
      exact Fails.of_failure (.nameless rfl hfault)
  | constant l name e =>
    refine Leads.adaptExcept ((bindConstant_leads l env pending a name e).mono ?_ fun _ _ h => h) fun _ _ h => h
    rintro _ _ ⟨g, hg, rfl⟩
    exact ⟨g, hg, .refl _⟩
  | region l name type es => exact (bindRegion_leads l env pending a name type es).adaptExcept fun _ _ h => h
  | embedding l name path => exact embed_leads l env a name path
  | foreign l kind => exact Leads.of_throw (Fails.of_failure (.nameless rfl fun _ => trivial))

end

end Assembly

end AvmAssembler
