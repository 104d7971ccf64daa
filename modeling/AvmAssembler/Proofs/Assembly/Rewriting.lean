import AvmAssembler.Proofs.Assembly.Passes

/-! # The second pass with other expressions

The expressions of a program are rewritten, and the second pass works with another table, in which the new expressions
have the values of the old ones. Wherever the pass goes through without a fault, it goes through with the new expressions
as well and adds the same memory and the same records. Warnings may stand at other places.
-/

namespace AvmAssembler

namespace Statement

def rewrite (f : Expr → Expr) : Statement → Statement
  | .instruction l name argument => .instruction l name (argument.map f)
  | .constant l name e => .constant l name (f e)
  | .region l name type es => .region l name type (es.map f)
  | .label l name => .label l name
  | .embedding l name path => .embedding l name path
  | .foreign l kind => .foreign l kind

theorem map_rewrite_id (ss : List Statement) : ss.map (rewrite id) = ss := by
  have hid : rewrite id = id := by
    funext s
    cases s <;> simp [rewrite]
  rw [hid, List.map_id]

/-- What does not depend on expressions is the same for rewritten statements. -/
theorem filterMap_rewrite {α : Type} {f : Expr → Expr} {g : Statement → Option α} (hg : ∀ s, g (s.rewrite f) = g s)
    (ss : List Statement) : (ss.map (rewrite f)).filterMap g = ss.filterMap g := by
  rw [List.filterMap_map]
  exact List.filterMap_congr fun s _ => hg s

end Statement

namespace Assembly

/-- Expressions are rewritten such that they keep their values when a table is replaced by a related one. -/
structure Keeps (f : Expr → Expr) (related : SymbolTable → SymbolTable → Prop) : Prop where
  value {table table' pending pending' e v} : related table table' →
    Expr.value table pending e = .ok v → Expr.value table' pending' (f e) = .ok v
  string (l text) : f (.string l text) = .string l text
  fill (l value count) : f (.fill l value count) = .fill l (f value) (f count)
  free {table table' name} : related table table' → table.get? name = none → table'.get? name = none
  push {table table' name symbol} : related table table' → table.get? name = none →
    related (table.push name symbol) (table'.push name symbol)

/-- The states have the same code, related tables and the same number of errors. -/
structure Follows (related : SymbolTable → SymbolTable → Prop) (a a' : Assembly) : Prop where
  symbols : related a.symbols a'.symbols
  entryPoint : a'.entryPoint = a.entryPoint
  memory : a'.memory = a.memory
  records : a'.records = a.records
  errors : a'.errors = a.errors

/-- Whenever the one step succeeds, so does the other, with the same value. -/
def Tracks {ε α : Type} (related : SymbolTable → SymbolTable → Prop) (step step' : EStateM ε Assembly α) : Prop :=
  ∀ a a' x b, Follows related a a' → step a = .ok x b → ∃ b', step' a' = .ok x b' ∧ Follows related b b'

variable {related : SymbolTable → SymbolTable → Prop} {ε δ α β : Type} {step step' : EStateM ε Assembly α}

namespace Tracks

theorem pure (x : α) : Tracks related (pure x : EStateM ε Assembly α) (pure x) := by
  rintro a a' _ _ hfollows ⟨⟩
  exact ⟨a', rfl, hfollows⟩

theorem throw (e e' : ε) : Tracks related (throw e : EStateM ε Assembly α) (throw e') := by
  rintro a a' _ _ - ⟨⟩

theorem adaptExcept (h : Tracks related step step') (f : ε → δ) :
    Tracks related (step.adaptExcept f) (step'.adaptExcept f) := by
  intro a a' x b hfollows hrun
  obtain ⟨b', hstep', hfollows'⟩ := h a a' x b hfollows (adaptExcept_eq_ok.1 hrun)
  exact ⟨b', adaptExcept_eq_ok.2 hstep', hfollows'⟩

theorem bind {next next' : α → EStateM ε Assembly β} (h : Tracks related step step')
    (hnext : ∀ x, Tracks related (next x) (next' x)) : Tracks related (step >>= next) (step' >>= next') := by
  intro a a' y c hfollows hrun
  obtain ⟨x, b, hstep, hrest⟩ := exists_of_bind_eq_ok hrun
  obtain ⟨b', hstep', hfollows'⟩ := h a a' x b hfollows hstep
  rw [bind_of_ok hstep']
  exact hnext x b b' y c hfollows' hrest

theorem get {next next' : Assembly → EStateM ε Assembly α}
    (h : ∀ a a', Follows related a a' → Tracks related (next a) (next' a')) :
    Tracks related (get >>= next) (get >>= next') :=
  fun a a' x b hfollows hrun => h a a' hfollows a a' x b hfollows hrun

theorem modify {f f' : Assembly → Assembly} (h : ∀ a a', Follows related a a' → Follows related (f a) (f' a')) :
    Tracks related (modify f : EStateM ε Assembly PUnit) (modify f') := by
  rintro a a' _ _ hfollows ⟨⟩
  exact ⟨f' a', rfl, h a a' hfollows⟩

theorem ite {c : Prop} [Decidable c] {other other' : EStateM ε Assembly α} (h : Tracks related step step')
    (hother : Tracks related other other') :
    Tracks related (if c then step else other) (if c then step' else other') := by
  split
  · exact h
  · exact hother

end Tracks

theorem orFault_tracks {r r' : Except Fault α} (h : ∀ x, r = .ok x → r' = .ok x) :
    Tracks related (orFault r) (orFault r') := by
  cases r with
  | ok x =>
    rw [h x rfl]
    exact .pure x
  | error fault =>
    rintro a a' x b - ⟨⟩

/-- Warnings do not matter. -/
theorem Follows.quiet {a a' b b' : Assembly} (h : Follows related a a') (hb : Quiet a b) (hb' : Quiet a' b') :
    Follows related b b' where
  symbols := by rw [hb.symbols, hb'.symbols]; exact h.symbols
  entryPoint := by rw [hb.entryPoint, hb'.entryPoint, h.entryPoint]
  memory := by rw [hb.memory, hb'.memory, h.memory]
  records := by rw [hb.records, hb'.records, h.records]
  errors := by rw [hb.errors, hb'.errors, h.errors]

/-! ## Expressions and elements -/

theorem valueOf_eq_ok {pending : Pending} {e : Expr} {a b : Assembly} {w : Nat} :
    valueOf pending e a = .ok w b ↔ b = a ∧ ∃ v, e.value a.symbols pending = .ok v ∧ w = v.toNat := by
  rw [valueOf, get_bind]
  cases he : e.value a.symbols pending with
  | ok v =>
    have hvalue : orFault (.ok v : Except Fault Int) a = .ok v a := rfl
    rw [bind_of_ok hvalue]
    simp [eq_comm, and_comm]
  | error fault =>
    have hfault : orFault (.error fault : Except Fault Int) a = .error fault a := rfl
    rw [bind_of_error hfault]
    simp

theorem element_eq_ok (word : Nat) (type : ElementType) (l : Option Location) (a : Assembly) :
    ∃ b, element word type l a = .ok (bigEndian type.size word) b ∧ Quiet a b := by
  have hleads := element_leads type l a word
  cases h : element word type l a with
  | ok bytes b =>
    obtain ⟨hquiet, rfl⟩ := hleads.at_ok h
    exact ⟨b, rfl, hquiet⟩
  | error fault b => exact (hleads.at_error h).elim

theorem element_tracks (word : Nat) (type : ElementType) (l l' : Option Location) :
    Tracks related (element word type l) (element word type l') := by
  intro a a' bytes b hfollows hrun
  obtain ⟨c, hc, hquiet⟩ := element_eq_ok word type l a
  obtain ⟨c', hc', hquiet'⟩ := element_eq_ok word type l' a'
  obtain ⟨rfl, rfl⟩ := EStateM.Result.ok.inj (hrun.symm.trans hc)
  exact ⟨c', hc', hfollows.quiet hquiet hquiet'⟩

theorem elements_tracks (type : ElementType) (l l' : Option Location) (words : List Nat) :
    Tracks related (elements type l words) (elements type l' words) := by
  induction words with
  | nil => exact .pure []
  | cons word words ih => exact (element_tracks word type l l').bind fun _ => ih.bind fun _ => .pure _

theorem initializerBytes_of_value {table : SymbolTable} {pending pending' : Pending} {type : ElementType} {e : Expr}
    {v : Int} (h : e.value table pending = .ok v) :
    initializerBytes pending' type e = (do let word ← valueOf pending' e; element word type e.location) := by
  cases e with
  | fill | string => cases h
  | _ => rfl

variable {f : Expr → Expr} (hf : Keeps f related) (pending pending' : Pending)

include hf

theorem valueOf_tracks (e : Expr) : Tracks related (valueOf pending e) (valueOf pending' (f e)) :=
  .get fun _ _ hfollows => (orFault_tracks fun _ hv => hf.value hfollows.symbols hv).bind fun v => .pure v.toNat

theorem initializerBytes_tracks (type : ElementType) (e : Expr) :
    Tracks related (initializerBytes pending type e) (initializerBytes pending' type (f e)) := by
  -- What the rewritten expression looks like is not known, but that it has a value.
  have hscalar : Tracks related (do let word ← valueOf pending e; element word type e.location)
      (initializerBytes pending' type (f e)) := by
    intro a a' bytes b hfollows hrun
    obtain ⟨w, c, hw, -⟩ := exists_of_bind_eq_ok hrun
    obtain ⟨-, v, hv, -⟩ := valueOf_eq_ok.1 hw
    have hvalue : (f e).value a'.symbols pending' = .ok v := hf.value hfollows.symbols hv
    rw [initializerBytes_of_value hvalue]
    exact ((valueOf_tracks hf pending pending' e).bind fun word => element_tracks word type _ _) a a' bytes b hfollows hrun
  cases e with
  | fill l value count =>
    rw [hf.fill]
    refine (valueOf_tracks hf pending pending' value).bind fun word => ?_
    refine (element_tracks word type _ _).bind fun bytes => ?_
    refine (valueOf_tracks hf pending pending' count).bind fun times => ?_
    refine .ite ((Tracks.throw _ _).bind fun _ => .ite ((Tracks.throw _ _).bind fun _ => .pure _) (.pure _)) ?_
    exact .ite ((Tracks.throw _ _).bind fun _ => .pure _) (.pure _)
  | string l text =>
    rw [hf.string]
    exact elements_tracks type l l _
  | integer | float | name | type | sizeof | apply | foreign => exact hscalar

theorem initializersBytes_tracks (type : ElementType) (es : List Expr) :
    Tracks related (initializersBytes pending type es) (initializersBytes pending' type (es.map f)) := by
  induction es with
  | nil => exact .pure []
  | cons e es ih => exact (initializerBytes_tracks hf pending pending' type e).bind fun _ => ih.bind fun _ => .pure _

/-! ## Statements -/

omit pending pending'

theorem checkFree_tracks (name : String) (l : Option Location) :
    Tracks related (checkFree name l) (checkFree name l) :=
  .get fun _ _ hfollows => orFault_tracks fun _ hfree =>
    SymbolTable.checkFree_eq_ok.2 (hf.free hfollows.symbols (SymbolTable.checkFree_eq_ok.1 hfree))

theorem define_tracks (name : String) (symbol : Symbol) : Tracks related (define name symbol) (define name symbol) := by
  intro a a' _ b hfollows hrun
  have hfree : a.symbols.get? name = none := by
    cases h : a.symbols.define name symbol with
    | ok symbols => exact (SymbolTable.define_eq_ok.1 h).1
    | error fault =>
      rw [define, get_bind, h] at hrun
      cases hrun
  have hfree' := hf.free hfollows.symbols hfree
  obtain ⟨-, rfl⟩ := EStateM.Result.ok.inj (hrun.symm.trans (define_of_free hfree))
  refine ⟨_, define_of_free hfree', hf.push hfollows.symbols hfree, hfollows.entryPoint, ?_, ?_, hfollows.errors⟩
  · simp [hfollows.memory]
  · simp [hfollows.records]

omit hf in
/-- Only what comes of success is compared. -/
theorem orBind_tracks (name : String) (symbol : Symbol) {step step' : Processing α} (h : Tracks related step step') :
    Tracks related (orBind name symbol step) (orBind name symbol step') := by
  intro a a' x b hfollows hrun
  have hstep : step a = .ok x b := by
    unfold orBind at hrun
    split at hrun
    · rename_i hstep
      exact hstep.trans hrun
    · split at hrun <;> cases hrun
  obtain ⟨b', hstep', hfollows'⟩ := h a a' x b hfollows hstep
  exact ⟨b', by simp only [orBind, hstep'], hfollows'⟩

theorem appendRegion_tracks (name : String) (l : Option Location) (bytes : List UInt8) :
    Tracks related (appendRegion name l bytes) (appendRegion name l bytes) := by
  refine .get fun a a' hfollows => ?_
  refine (Tracks.modify fun c c' h => ?_).bind fun _ => ?_
  · exact ⟨h.symbols, h.entryPoint, congrArg (· ++ bytes) h.memory, h.records, h.errors⟩
  · rw [hfollows.memory]
    exact define_tracks hf name _

theorem appendInstruction_tracks (pending pending' : Pending) (l : Option Location) (name : String)
    (argument : Option Expr) :
    Tracks related (appendInstruction pending l name argument) (appendInstruction pending' l name (argument.map f)) := by
  have happend (r : Record) : Tracks related
      (modify fun a => { a with records := a.records ++ [r] } : Processing Unit)
      (modify fun a => { a with records := a.records ++ [r] }) :=
    .modify fun _ _ h => ⟨h.symbols, h.entryPoint, h.memory, congrArg (· ++ [r]) h.records, h.errors⟩
  unfold appendInstruction
  cases InstructionSet.byName? name with
  | none => exact .throw _ _
  | some m =>
    cases argument with
    | none =>
      cases hm : m.takesArgument with
      | true => simpa only [Option.map_none, hm] using Tracks.throw _ _
      | false => simpa only [Option.map_none, hm] using happend _
    | some e =>
      cases hm : m.takesArgument with
      | true => simpa only [Option.map_some, hm] using (valueOf_tracks hf pending pending' e).bind fun w => happend _
      | false => simpa only [Option.map_some, hm] using Tracks.throw _ _

theorem process_tracks (env : Surroundings) (pending pending' : Pending) (s : Statement) :
    Tracks related (process env pending s) (process env pending' (s.rewrite f)) := by
  cases s with
  | label => exact .pure ()
  | instruction l name argument => exact (appendInstruction_tracks hf pending pending' l name argument).adaptExcept _
  | constant l name e =>
    refine Tracks.adaptExcept ((checkFree_tracks hf name l).bind fun _ => ?_) _
    exact (orBind_tracks name _ (valueOf_tracks hf pending pending' e)).bind fun w => define_tracks hf name _
  | region l name type es =>
    refine Tracks.adaptExcept ((checkFree_tracks hf name l).bind fun _ => .get fun a a' hfollows => ?_) _
    rw [hfollows.memory]
    refine (orBind_tracks name _ (initializersBytes_tracks hf pending pending' type es)).bind fun bytes => ?_
    exact appendRegion_tracks hf name l bytes
  | embedding l name path =>
    refine ((checkFree_tracks hf name l).adaptExcept _).bind fun _ => ?_
    split
    · exact .throw _ _
    · refine Tracks.adaptExcept (.get fun a a' hfollows => (appendRegion_tracks hf name l _).bind fun _ => ?_) _
      rw [hfollows.memory]
      exact .modify fun c c' h => ⟨h.symbols, h.entryPoint, h.memory, h.records, h.errors⟩
  | foreign => exact .throw _ _

/-! ## Passes without a fault -/

omit hf

theorem attempt_eq_ok {env : Surroundings} {step : Attempt Unit} {a b : Assembly} {s : Statement}
    (h : attempt step a = .ok () b) (hleads : Leads step a (fun _ _ => True) (Stops env a s)) :
    step a = .ok () b ∨ a.errors < b.errors := by
  unfold attempt at h
  split at h
  · rename_i hstep
    obtain ⟨-, rfl⟩ := EStateM.Result.ok.inj h
    exact .inl hstep
  · rename_i fault c hstep
    split at h
    · cases h
    · obtain ⟨-, hgrown⟩ := (report_leads fault c).at_ok h
      have hlt : c.errors < b.errors := errors_lt_of_grown rfl hgrown
      have hsame : c.errors = a.errors := Fails.errors (hleads.at_error hstep)
      exact .inr (by omega)
  · cases h

/-- Where no error is added, each statement has succeeded. -/
theorem processAll_cons_of_clean {env : Surroundings} {pending : Pending} {s : Statement} {rest : List Statement}
    {a b : Assembly} (h : processAll env pending (s :: rest) a = .ok () b) (hclean : b.errors = a.errors) :
    ∃ c, process env pending s a = .ok () c ∧ processAll env pending rest c = .ok () b ∧ c.errors = a.errors := by
  rw [processAll] at h
  obtain ⟨_, c, hattempt, hrest⟩ := exists_of_bind_eq_ok h
  obtain ⟨-, hle, -⟩ := (processAll_leads env pending rest c).at_ok hrest
  have hprocess := process_leads env pending s a
  rcases attempt_eq_ok hattempt (hprocess.mono (fun _ _ _ => trivial) fun _ _ h => h) with hok | hlt
  · obtain ⟨g, -, hquiet⟩ := hprocess.at_ok hok
    exact ⟨c, hok, hrest, hquiet.errors⟩
  · omega

theorem processAll_tracks (hf : Keeps f related) {env : Surroundings} (pending' : Pending) {pending : Pending}
    {ss : List Statement} {a a' b : Assembly} (hfollows : Follows related a a')
    (h : processAll env pending ss a = .ok () b) (hclean : b.errors = a.errors) :
    ∃ b', processAll env pending' (ss.map (Statement.rewrite f)) a' = .ok () b' ∧ Follows related b b' := by
  induction ss generalizing a a' with
  | nil =>
    cases h
    exact ⟨a', rfl, hfollows⟩
  | cons s rest ih =>
    obtain ⟨c, hs, hrest, hsame⟩ := processAll_cons_of_clean h hclean
    obtain ⟨c', hs', hfollows'⟩ := process_tracks hf env pending pending' s a a' () c hfollows hs
    obtain ⟨b', hrest', hend⟩ := ih hfollows' hrest (hclean.trans hsame.symm)
    refine ⟨b', ?_, hend⟩
    rw [List.map_cons, processAll, bind_of_ok (attempt_of_ok hs')]
    exact hrest'

end Assembly

end AvmAssembler
