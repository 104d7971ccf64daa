import AvmAssembler.Proofs.Assembly.Passes
import Mathlib.Algebra.Ring.Int.Defs

/-! # Memory layout

Regions lie in memory one after another in the order of their names and cover it exactly, whatever calls an assembly has
been through and however these ended. Symbols, memory and records only grow at their ends, so a region keeps the bytes
that its declaration gave to it.
-/

namespace AvmAssembler

/-- The address and the size of each region, in the order of the table. -/
def SymbolTable.regions (table : SymbolTable) : List (Int × Int) :=
  table.entries.filterMap fun e =>
    match e.2.meaning with
    | .region address size => some (address, size)
    | _ => none

namespace Assembly

/-! ## The layout -/

/-- No name is bound twice, no region has a negative size, each region starts where the sizes of those before it add up
to, and together they are as long as the memory. -/
structure LaidOut (a : Assembly) : Prop where
  names : a.symbols.names.Nodup
  sizes : ∀ r ∈ a.symbols.regions, 0 ≤ r.2
  addresses : ∀ before r after, a.symbols.regions = before ++ r :: after →
    r.1 = (before.map Prod.snd).sum
  total : (a.symbols.regions.map Prod.snd).sum = a.memory.length

theorem laidOut_empty (j : Journal) : LaidOut { journal := j } where
  names := .nil
  sizes := by simp [SymbolTable.regions]
  addresses := by simp [SymbolTable.regions]
  total := rfl

theorem LaidOut.hasSizes {a : Assembly} (h : a.LaidOut) : a.symbols.HasSizes := by
  intro name l address size hmem
  exact h.sizes (address, size) (List.mem_filterMap.2 ⟨_, hmem, rfl⟩)

theorem regions_append (entries more : List (String × Symbol)) :
    SymbolTable.regions ⟨entries ++ more⟩ = SymbolTable.regions ⟨entries⟩ ++ SymbolTable.regions ⟨more⟩ :=
  List.filterMap_append

theorem regions_of_kind_ne {name : String} {symbol : Symbol} (h : symbol.meaning.kind ≠ .region) :
    SymbolTable.regions ⟨[(name, symbol)]⟩ = [] := by
  obtain ⟨l, meaning⟩ := symbol
  cases meaning <;> first | rfl | exact absurd rfl h

/-- A step keeps the layout: a new region starts at the end of the memory. -/
theorem LaidOut.step {a b : Assembly} (h : a.LaidOut) (hstep : Step a b) : b.LaidOut := by
  obtain ⟨g, hfits, hb⟩ := hstep
  have hsymbols : b.symbols = ⟨a.symbols.entries ++ g.entries⟩ := by rw [hb]; rfl
  have hmemory : b.memory = a.memory ++ g.bytes := by rw [hb]; rfl
  have hnames : ∀ {name symbol}, a.symbols.get? name = none → g.entries = [(name, symbol)] →
      b.symbols.names.Nodup := by
    intro name symbol hfree hentries
    rw [hsymbols, hentries]
    exact SymbolTable.nodup_names_push h.names hfree symbol
  have hregions : b.symbols.regions = a.symbols.regions ++ SymbolTable.regions ⟨g.entries⟩ := by
    rw [hsymbols, regions_append]
  cases hfits with
  | records rs =>
    simp only [List.append_nil] at hsymbols hmemory
    exact ⟨hsymbols ▸ h.names, hsymbols ▸ h.sizes, hsymbols ▸ h.addresses, by rw [hsymbols, hmemory, h.total]⟩
  | name hfree hkind =>
    rw [regions_of_kind_ne hkind, List.append_nil] at hregions
    simp only [List.append_nil] at hmemory
    exact ⟨hnames hfree rfl, hregions ▸ h.sizes, hregions ▸ h.addresses, by rw [hregions, hmemory, h.total]⟩
  | @region name l bytes hfree =>
    have hnew : SymbolTable.regions ⟨[(name, ⟨l, .region a.memory.length bytes.length⟩)]⟩ =
        [((a.memory.length : Int), (bytes.length : Int))] := rfl
    rw [hnew] at hregions
    refine ⟨hnames hfree rfl, ?_, ?_, ?_⟩
    · rw [hregions]
      intro r hr
      rcases List.mem_append.1 hr with hr | hr
      · exact h.sizes r hr
      · obtain rfl := List.mem_singleton.1 hr
        exact Int.natCast_nonneg _
    · intro before r after heq
      rw [hregions] at heq
      rcases List.eq_nil_or_concat after with rfl | ⟨init, last, rfl⟩
      · obtain ⟨rfl, hr⟩ := List.append_inj' heq rfl
        obtain rfl := List.singleton_inj.1 hr
        exact h.total.symm
      · rw [List.concat_eq_append, ← List.cons_append, ← List.append_assoc] at heq
        exact h.addresses before r init (List.append_inj_left' heq rfl)
    · simp [hregions, hmemory, h.total]

theorem LaidOut.steps {a b : Assembly} (h : a.LaidOut) (hsteps : Steps a b) : b.LaidOut := by
  induction hsteps with
  | refl => exact h
  | tail _ hstep ih => exact ih.step hstep

/-! ## Growth at the ends -/

/-- Nothing that is there has changed, and more may stand behind it. -/
structure Extends (a b : Assembly) : Prop where
  symbols : a.symbols.entries <+: b.symbols.entries
  memory : a.memory <+: b.memory
  records : a.records <+: b.records

theorem Extends.refl (a : Assembly) : Extends a a :=
  ⟨List.prefix_rfl, List.prefix_rfl, List.prefix_rfl⟩

theorem Extends.trans {a b c : Assembly} (hab : Extends a b) (hbc : Extends b c) : Extends a c :=
  ⟨hab.symbols.trans hbc.symbols, hab.memory.trans hbc.memory, hab.records.trans hbc.records⟩

theorem Step.extends {a b : Assembly} (h : Step a b) : Extends a b := by
  obtain ⟨g, -, hb⟩ := h
  rw [hb]
  exact ⟨List.prefix_append .., List.prefix_append .., List.prefix_append ..⟩

theorem Steps.extends {a b : Assembly} (h : Steps a b) : Extends a b := by
  induction h with
  | refl => exact .refl a
  | tail _ hstep ih => exact ih.trans hstep.extends

/-! ## What regions hold -/

def Holds (a : Assembly) (name : String) (l : Option Location) (bytes : List UInt8) : Prop :=
  ∃ before after, a.memory = before ++ bytes ++ after ∧
    a.symbols.get? name = some ⟨l, .region before.length bytes.length⟩

theorem Holds.extends {a b : Assembly} {name : String} {l : Option Location} {bytes : List UInt8}
    (h : a.Holds name l bytes) (hextends : Extends a b) : b.Holds name l bytes := by
  obtain ⟨before, after, hmemory, hget⟩ := h
  obtain ⟨more, hmore⟩ := hextends.memory
  refine ⟨before, after ++ more, ?_, SymbolTable.Agrees.of_prefix hextends.symbols _ _ hget⟩
  rw [← hmore, hmemory, List.append_assoc]

/-- In a later state, the region of a declaration holds what the declaration says: the encodings of its initializers, or
the bytes of its file. -/
def Stores (env : Surroundings) (a later : Assembly) : Statement → Prop
  | .region l name type initializers => ∃ bytes,
    Expr.encodings? a.symbols type initializers = some bytes ∧ later.Holds name l bytes
  | .embedding l name path => ∃ resolved bytes,
    env.tree.find? path ((l.map Location.file).getD FileTree.inputName) env.searchPaths =
        .ok (some resolved) ∧
      env.tree.readBytes resolved = .ok bytes ∧ later.Holds name l bytes
  | _ => True

theorem get?_grow_of_free {a : Assembly} {name : String} {symbol : Symbol} {bytes : List UInt8}
    (hfree : a.symbols.get? name = none) :
    (a.grow { entries := [(name, symbol)], bytes := bytes }).symbols.get? name = some symbol := by
  rw [get?_grow_name, hfree, if_pos rfl, Option.none_or]

theorem Effect.stores {env : Surroundings} {a b : Assembly} {s : Statement} {g : Growth}
    (h : Effect env a s g) (hb : Quiet (a.grow g) b) : Stores env a b s := by
  have hregion : ∀ {name l} {bytes : List UInt8}, a.symbols.get? name = none →
      g = { entries := [(name, ⟨l, .region a.memory.length bytes.length⟩)], bytes := bytes } →
      b.Holds name l bytes := by
    rintro name l bytes hfree rfl
    refine ⟨a.memory, [], ?_, ?_⟩
    · rw [hb.memory, grow_memory, List.append_nil]
    · rw [hb.symbols, get?_grow_of_free hfree]
  cases h with
  | label | nullary | unary | constant => trivial
  | region hfree hbytes => exact ⟨_, hbytes, hregion hfree rfl⟩
  | embedding hfree hfind hread => exact ⟨_, _, hfind, hread, hregion hfree rfl⟩

theorem Stores.extends {env : Surroundings} {a b c : Assembly} {s : Statement} (h : Stores env a b s)
    (hextends : Extends b c) : Stores env a c s := by
  cases s with
  | region l name type initializers =>
    obtain ⟨bytes, hbytes, hholds⟩ := h
    exact ⟨bytes, hbytes, hholds.extends hextends⟩
  | embedding l name path =>
    obtain ⟨resolved, bytes, hfind, hread, hholds⟩ := h
    exact ⟨resolved, bytes, hfind, hread, hholds.extends hextends⟩
  | _ => trivial

/-! ## Runs of calls -/

inductive Passes where
  | first
  | second
  | both

structure Call where
  passes : Passes
  settings : AssemblySettings
  program : Program

/-- The state in which a computation ends, however it ends. -/
def endState {ε σ α : Type} (step : EStateM ε σ α) (s : σ) : σ :=
  match step s with
  | .ok _ t | .error _ t => t

namespace Call

/-- The assembly after a call, however it ended. -/
def after (c : Call) (a : Assembly) : Assembly :=
  match c.passes with
  | .first => endState (resolve c.settings c.program) a
  | .second => endState (generate c.settings c.program) a
  | .both => endState (compile c.settings c.program) a

def afterAll (calls : List Call) (a : Assembly) : Assembly :=
  calls.foldl (fun a c => c.after a) a

/-- The assembly in which the second pass starts, if the call comes to it. -/
def secondPass? (c : Call) (a : Assembly) : Option Assembly :=
  match c.passes with
  | .first => none
  | .second => some a
  | .both =>
    match resolve c.settings c.program a with
    | .ok true b => some b
    | _ => none

def Reaches (c : Call) (a : Assembly) (s : Statement) (b : Assembly) : Prop :=
  ∃ start done rest, c.secondPass? a = some start ∧ c.program.statements = done ++ s :: rest ∧
    processAll c.settings.surroundings (declarations c.program.statements) done start = .ok () b

def Succeeds (c : Call) (s : Statement) (b : Assembly) : Prop :=
  ∃ next, process c.settings.surroundings (declarations c.program.statements) s b = .ok () next

theorem endState_of_leads {ε σ α : Type} {step : EStateM ε σ α} {s : σ} {P : σ → Prop}
    (h : Leads step s (fun _ t => P t) (fun _ t => P t)) : P (endState step s) := by
  unfold endState
  cases hs : step s with
  | ok x t => exact h.at_ok hs
  | error e t => exact h.at_error hs

theorem endState_bind {ε σ α β : Type} {step : EStateM ε σ β} {next : β → EStateM ε σ α} {s t : σ} {x : β}
    (h : step s = .ok x t) : endState (step >>= next) s = endState (next x) t := by
  simp only [endState, bind_of_ok h]

theorem after_steps (c : Call) (a : Assembly) : Steps a (c.after a) := by
  unfold after
  split
  · exact endState_of_leads ((resolve_leads c.settings c.program a).mono (fun _ _ h => h.1) fun _ _ h => h)
  · exact endState_of_leads ((generate_leads c.settings c.program a).mono (fun _ _ h => h.1) fun _ _ h => h)
  · exact endState_of_leads ((compile_leads c.settings c.program a).mono (fun _ _ h => h.1) fun _ _ h => h)

theorem afterAll_steps (calls : List Call) (a : Assembly) : Steps a (afterAll calls a) := by
  induction calls generalizing a with
  | nil => exact .refl
  | cons c calls ih => exact (after_steps c a).trans (ih (c.after a))

theorem afterAll_append (earlier later : List Call) (a : Assembly) :
    afterAll (earlier ++ later) a = afterAll later (afterAll earlier a) :=
  List.foldl_append

theorem processAll_append {env : Surroundings} {pending : Pending} {done : List Statement} {a b : Assembly}
    (h : processAll env pending done a = .ok () b) (rest : List Statement) :
    processAll env pending (done ++ rest) a = processAll env pending rest b := by
  induction done generalizing a with
  | nil =>
    obtain ⟨⟩ := h
    rfl
  | cons s done ih =>
    rw [List.cons_append]
    rw [processAll] at h ⊢
    cases hs : attempt (process env pending s) a with
    | ok x c =>
      rw [bind_of_ok hs] at h ⊢
      exact ih h
    | error e c =>
      rw [bind_of_error hs] at h
      cases h

theorem secondPass?_steps {c : Call} {a start : Assembly} (h : c.secondPass? a = some start) : Steps a start := by
  obtain ⟨passes, settings, program⟩ := c
  cases passes with
  | first => cases h
  | second =>
    obtain rfl := Option.some.inj h
    exact .refl
  | both =>
    simp only [secondPass?] at h
    split at h
    · rename_i b hresolve
      obtain rfl := Option.some.inj h
      exact ((resolve_leads settings program a).at_ok hresolve).1
    · cases h

theorem after_of_secondPass? {c : Call} {a start : Assembly} (h : c.secondPass? a = some start) :
    c.after a = endState (generate c.settings c.program) start := by
  obtain ⟨passes, settings, program⟩ := c
  cases passes with
  | first => cases h
  | second =>
    obtain rfl := Option.some.inj h
    rfl
  | both =>
    simp only [secondPass?] at h
    split at h
    · rename_i b hresolve
      obtain rfl := Option.some.inj h
      exact endState_bind hresolve
    · cases h

/-- The second pass ends with steps from any state that it has come to. -/
theorem steps_after {c : Call} {a start b : Assembly} {done rest : List Statement}
    (hstart : c.secondPass? a = some start) (hstatements : c.program.statements = done ++ rest)
    (hdone : processAll c.settings.surroundings (declarations c.program.statements) done start = .ok () b) :
    Steps b (c.after a) := by
  have hprocess : Leads (processAll c.settings.surroundings (declarations c.program.statements) c.program.statements)
      start (fun _ d => Steps b d) (fun _ d => Steps b d) := by
    refine Leads.of_eq ?_ ((processAll_leads c.settings.surroundings (declarations c.program.statements) rest b).mono
      (fun _ _ h => h.1) fun _ _ h => h)
    rw [← processAll_append hdone rest, ← hstatements]
  have hgenerate : Leads (generate c.settings c.program) start (fun _ d => Steps b d) (fun _ d => Steps b d) := by
    rw [generate_eq]
    refine Leads.of_bind hprocess ?_ fun _ _ h => h
    intro _ d hd
    exact (conclude_leads d).mono (fun _ _ h => hd.trans (Steps.of_quiet h.1)) fun _ _ h => h.elim
  rw [after_of_secondPass? hstart]
  exact endState_of_leads hgenerate

theorem Reaches.steps {c : Call} {a b : Assembly} {s : Statement} (h : c.Reaches a s b) :
    Steps a b ∧ Steps b (c.after a) := by
  obtain ⟨start, done, rest, hstart, hstatements, hdone⟩ := h
  refine ⟨(secondPass?_steps hstart).trans ?_, steps_after hstart hstatements hdone⟩
  exact ((processAll_leads _ _ done start).at_ok hdone).1

/-- What a statement has stored is there when the call ends, whatever becomes of the statements after it. -/
theorem Reaches.stores {c : Call} {a b : Assembly} {s : Statement} (h : c.Reaches a s b) (hs : c.Succeeds s b) :
    Stores c.settings.surroundings b (c.after a) s := by
  obtain ⟨start, done, rest, hstart, hstatements, hdone⟩ := h
  obtain ⟨next, hnext⟩ := hs
  obtain ⟨g, hg, hquiet⟩ := (process_leads _ _ s b).at_ok hnext
  have hdone' : processAll c.settings.surroundings (declarations c.program.statements) (done ++ [s]) start =
      .ok () next := by
    rw [processAll_append hdone]
    rw [processAll, bind_of_ok (attempt_of_ok hnext)]
    rfl
  have hsteps : Steps next (c.after a) := steps_after hstart (by simpa using hstatements) hdone'
  exact (hg.stores hquiet).extends (Steps.extends hsteps)

end Call

/-- Whatever calls an assembly that starts empty goes through, and however they end: regions lie one after another and
cover the memory, what is there stays there, and a declaration that has succeeded keeps its bytes. The same holds in
between, whenever the second pass of a call comes to a statement. -/
theorem memory_layout (j : Journal) (calls : List Call) :
    (Call.afterAll calls { journal := j }).LaidOut ∧
      (∀ earlier later, calls = earlier ++ later →
        Extends (Call.afterAll earlier { journal := j }) (Call.afterAll calls { journal := j })) ∧
      ∀ earlier c later s b, calls = earlier ++ c :: later →
        c.Reaches (Call.afterAll earlier { journal := j }) s b →
        b.LaidOut ∧ Extends (Call.afterAll earlier { journal := j }) b ∧
          Extends b (Call.afterAll calls { journal := j }) ∧
          (c.Succeeds s b → Stores c.settings.surroundings b (Call.afterAll calls { journal := j }) s) := by
  have hempty := laidOut_empty j
  refine ⟨hempty.steps (Call.afterAll_steps calls _), ?_, ?_⟩
  · rintro earlier later rfl
    rw [Call.afterAll_append]
    exact Steps.extends (Call.afterAll_steps later _)
  · rintro earlier c later s b rfl hreaches
    obtain ⟨hbefore, hafter⟩ := hreaches.steps
    have hlater := Steps.extends (Call.afterAll_steps later (c.after (Call.afterAll earlier { journal := j })))
    rw [Call.afterAll_append]
    refine ⟨hempty.steps ((Call.afterAll_steps earlier _).trans hbefore), Steps.extends hbefore,
      (Steps.extends hafter).trans hlater, fun hs => ?_⟩
    exact (hreaches.stores hs).extends hlater

theorem memory_layout_fill :
    let fill : Expr := .fill none (.integer none 258) (.integer none 2)
    let c : Call := ⟨.both, ⟨⟨{}, []⟩, "entry"⟩,
      ⟨[.label none "entry", .region none "a" .i16 [fill, .string none "A"], .foreign none "Fill"], "a.avm"⟩⟩
    (Call.afterAll [c] { journal := {} }).LaidOut ∧
      (Call.afterAll [c] { journal := {} }).Holds "a" none [1, 2, 1, 2, 0, 65] := by
  intro fill c
  obtain ⟨hlaidOut, -, hreached⟩ := memory_layout {} [c]
  obtain ⟨-, -, -, hstores⟩ := hreached [] c [] (.region none "a" .i16 [fill, .string none "A"]) _ rfl
    ⟨_, [.label none "entry"], [.foreign none "Fill"], rfl, rfl, rfl⟩
  obtain ⟨bytes, hbytes, hholds⟩ := hstores ⟨_, rfl⟩
  obtain rfl : [1, 2, 1, 2, 0, 65] = bytes := Option.some.inj hbytes
  exact ⟨hlaidOut, hholds⟩

end Assembly

end AvmAssembler
