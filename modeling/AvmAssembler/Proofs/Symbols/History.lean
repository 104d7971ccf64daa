import AvmAssembler.Proofs.Assembly.Layout
import AvmAssembler.Proofs.Symbols.Lookup

/-! # Histories of a table

A table is called again and again, also after it has refused something. It holds the first definition of every name, in
the order in which the names were first defined. A name that was defined is refused from then on, and nothing changes
what it stands for.
-/

namespace AvmAssembler.SymbolTable

open Assembly (endState)

/-! ## Calls -/

inductive Answer where
  | done
  | symbol (found : Option Symbol)
  | truth (b : Bool)
  | names (list : List String)
  | number (n : Nat)
  | entries (list : List (String × Symbol))
  deriving DecidableEq

/-- A call on a table: define a name, ask whether it is free, look it up, or list what is there. -/
inductive Call where
  | define (name : String) (symbol : Symbol)
  | checkFree (name : String) (location : Option Location)
  | get? (name : String)
  | contains (name : String)
  | names
  | size
  | ofKind (kind : SymbolKind)
  deriving DecidableEq

namespace Call

def perform : Call → EStateM Fault SymbolTable Answer
  | define name symbol => fun table =>
    match table.define name symbol with
    | .ok later => .ok .done later
    | .error fault => .error fault table
  | checkFree name l => fun table =>
    match table.checkFree name l with
    | .ok () => .ok .done table
    | .error fault => .error fault table
  | get? name => fun table => .ok (.symbol (table.get? name)) table
  | contains name => fun table => .ok (.truth (table.contains name)) table
  | names => fun table => .ok (.names table.names) table
  | size => fun table => .ok (.number table.size) table
  | ofKind kind => fun table => .ok (.entries (table.ofKind kind)) table

/-- The table after a call, whether it was refused or not. -/
def after (c : Call) (table : SymbolTable) : SymbolTable := endState c.perform table

def afterAll (calls : List Call) (table : SymbolTable) : SymbolTable :=
  calls.foldl (fun table c => c.after table) table

def Refused (c : Call) (table : SymbolTable) : Prop :=
  ∃ fault, c.perform table = .error fault (c.after table)

/-- The name that a call wants to be free, and the place where it wants it. -/
def claimed? : Call → Option (String × Option Location)
  | define name symbol => some (name, symbol.location)
  | checkFree name l => some (name, l)
  | _ => none

/-- The definition that a call tries. -/
def definition? : Call → Option (String × Symbol)
  | define name symbol => some (name, symbol)
  | _ => none

variable {c : Call} {table later : SymbolTable} {name : String} {symbol first : Symbol} {l : Option Location}
  {fault : Fault}

theorem perform_of_taken (hc : c.claimed? = some (name, l)) (htaken : table.get? name = some first) :
    c.perform table = .error ⟨.redefinition name first.location, l⟩ table := by
  cases c with
  | define n symbol =>
    cases hc
    simp only [perform, define_eq_error.2 ⟨first, htaken, rfl⟩]
  | checkFree n l =>
    cases hc
    simp only [perform, checkFree_eq_error.2 ⟨first, htaken, rfl⟩]
  | _ => cases hc

theorem perform_define_of_free (hfree : table.get? name = none) (symbol : Symbol) :
    (define name symbol).perform table = .ok .done (table.push name symbol) := by
  simp only [perform, define_eq_ok.2 ⟨hfree, rfl⟩]

theorem perform_checkFree_of_free (hfree : table.get? name = none) (l : Option Location) :
    (checkFree name l).perform table = .ok .done table := by
  simp only [perform, checkFree_eq_ok.2 hfree]

theorem perform_of_free (hc : c.claimed? = some (name, l)) (hfree : table.get? name = none) :
    ∃ later, c.perform table = .ok .done later := by
  cases c with
  | define n symbol =>
    cases hc
    exact ⟨_, perform_define_of_free hfree symbol⟩
  | checkFree n l =>
    cases hc
    exact ⟨_, perform_checkFree_of_free hfree l⟩
  | _ => cases hc

/-- A call that wants a name is refused just if the name is taken, and the refusal leaves the table as it is. -/
theorem perform_eq_error_iff (hc : c.claimed? = some (name, l)) : c.perform table = .error fault later ↔
    ∃ first, table.get? name = some first ∧ fault = ⟨.redefinition name first.location, l⟩ ∧ later = table := by
  cases hname : table.get? name with
  | none =>
    obtain ⟨later', hdone⟩ := perform_of_free hc hname
    simp [hdone]
  | some first => simp [perform_of_taken hc hname, eq_comm]

theorem refused_iff (hc : c.claimed? = some (name, l)) :
    c.Refused table ↔ ∃ first, table.get? name = some first := by
  constructor
  · rintro ⟨fault, hrefused⟩
    obtain ⟨first, hfirst, -⟩ := (perform_eq_error_iff hc).1 hrefused
    exact ⟨first, hfirst⟩
  · rintro ⟨first, hfirst⟩
    have hrefused := perform_of_taken hc hfirst
    exact ⟨_, by rw [after, endState, hrefused]⟩

theorem eq_define_of_definition? (h : c.definition? = some (name, symbol)) : c = define name symbol := by
  cases c <;> cases h
  rfl

theorem claimed?_of_definition? (h : c.definition? = some (name, symbol)) :
    c.claimed? = some (name, symbol.location) := by
  rw [eq_define_of_definition? h, claimed?]

/-- Only a definition changes a table. -/
theorem after_of_definition?_eq_none (h : c.definition? = none) (table : SymbolTable) :
    c.after table = table := by
  cases c with
  | define name symbol => cases h
  | checkFree name l =>
    cases hname : table.get? name with
    | none => rw [after, endState, perform_checkFree_of_free hname]
    | some first => rw [after, endState, perform_of_taken rfl hname]
  | _ => rfl

/-- A definition that is refused does not change it either. -/
theorem after_of_refused (h : c.Refused table) : c.after table = table := by
  cases hc : c.definition? with
  | none => exact after_of_definition?_eq_none hc table
  | some d =>
    obtain ⟨fault, hrefused⟩ := h
    obtain ⟨first, -, -, hlater⟩ := (perform_eq_error_iff (claimed?_of_definition? hc)).1 hrefused
    exact hlater

end Call

/-! ## First definitions -/

/-- The definitions that calls try, those that are refused among them. -/
def definitions (calls : List Call) : List (String × Symbol) :=
  calls.filterMap Call.definition?

/-- The first definition of each name, in the order in which the names come up. -/
def firsts (defined : List (String × Symbol)) : List (String × Symbol) :=
  (defined.map Prod.fst).eraseDups.filterMap fun name => (defined.lookup name).map (name, ·)

/-- The table holds the first one of the definitions of each name. -/
structure HoldsFirsts (table : SymbolTable) (defined : List (String × Symbol)) : Prop where
  get?_eq : ∀ name, table.get? name = defined.lookup name
  names_eq : table.names = (defined.map Prod.fst).eraseDups
  nodup : table.names.Nodup

variable {table : SymbolTable} {defined : List (String × Symbol)} {name : String} {symbol first : Symbol}

theorem definitions_cons (c : Call) (calls : List Call) :
    definitions (c :: calls) = c.definition?.toList ++ definitions calls := by
  cases hc : c.definition? <;> simp [definitions, hc]

theorem mem_definitions {calls : List Call} : (name, symbol) ∈ definitions calls ↔ .define name symbol ∈ calls := by
  rw [definitions, List.mem_filterMap]
  constructor
  · rintro ⟨c, hmem, hc⟩
    exact Call.eq_define_of_definition? hc ▸ hmem
  · exact fun hmem => ⟨_, hmem, rfl⟩

/-- A name has a first definition just if it was defined. -/
theorem exists_lookup_definitions_iff {calls : List Call} :
    (∃ first, (definitions calls).lookup name = some first) ↔ ∃ symbol, .define name symbol ∈ calls := by
  constructor
  · rintro ⟨first, hfirst⟩
    obtain ⟨before, after, heq, -⟩ := List.lookup_eq_some_iff.1 hfirst
    exact ⟨first, mem_definitions.1 (by simp [heq])⟩
  · rintro ⟨symbol, hmem⟩
    rw [← Option.ne_none_iff_exists']
    intro hnone
    have hne := List.lookup_eq_none_iff.1 hnone _ (mem_definitions.2 hmem)
    simp at hne

theorem eraseDups_snoc (list : List String) (name : String) :
    (list ++ [name]).eraseDups = list.eraseDups ++ if name ∈ list then [] else [name] := by
  rw [List.eraseDups_append, List.cons_removeAll, List.nil_removeAll]
  by_cases hname : name ∈ list
  · simp [hname]
  · simp [hname, List.eraseDups_cons]

namespace HoldsFirsts

theorem empty : HoldsFirsts {} [] where
  get?_eq _ := rfl
  names_eq := rfl
  nodup := .nil

theorem entries_eq (h : HoldsFirsts table defined) : table.entries = firsts defined := by
  rw [SymbolTable.entries_eq h.nodup, h.names_eq, firsts]
  simp only [h.get?_eq]

/-- A definition that is refused is not the first one of its name. -/
theorem refuse (h : HoldsFirsts table defined) (htaken : table.get? name = some first) (symbol : Symbol) :
    HoldsFirsts table (defined ++ [(name, symbol)]) where
  get?_eq other := by
    rw [lookup_snoc, ← h.get?_eq]
    split
    · rename_i hother
      rw [hother, htaken, Option.some_or]
    · rw [Option.or_none]
  names_eq := by
    have hknown : name ∈ defined.map Prod.fst := by
      rw [← List.mem_eraseDups, ← h.names_eq]
      by_contra hunknown
      rw [get?_eq_none_iff.2 hunknown] at htaken
      cases htaken
    rw [List.map_append, List.map_singleton, eraseDups_snoc, if_pos hknown, List.append_nil, h.names_eq]
  nodup := h.nodup

/-- A definition of a free name is the first one of it. -/
theorem push (h : HoldsFirsts table defined) (hfree : table.get? name = none) (symbol : Symbol) :
    HoldsFirsts (table.push name symbol) (defined ++ [(name, symbol)]) where
  get?_eq other := by rw [lookup_snoc, get?_push, h.get?_eq]
  names_eq := by
    have hunknown : name ∉ defined.map Prod.fst := by
      rw [← List.mem_eraseDups, ← h.names_eq]
      exact get?_eq_none_iff.1 hfree
    rw [names_push, List.map_append, List.map_singleton, eraseDups_snoc, if_neg hunknown, h.names_eq]
  nodup := nodup_names_push h.nodup hfree symbol

theorem after (h : HoldsFirsts table defined) (c : Call) :
    HoldsFirsts (c.after table) (defined ++ c.definition?.toList) := by
  cases hc : c.definition? with
  | none =>
    rw [Call.after_of_definition?_eq_none hc, Option.toList_none, List.append_nil]
    exact h
  | some d =>
    obtain ⟨name, symbol⟩ := d
    obtain rfl := Call.eq_define_of_definition? hc
    cases hname : table.get? name with
    | none =>
      rw [Call.after, endState, Call.perform_define_of_free hname]
      exact h.push hname symbol
    | some first =>
      rw [Call.after, endState, Call.perform_of_taken rfl hname]
      exact h.refuse hname symbol

theorem afterAll (h : HoldsFirsts table defined) (calls : List Call) :
    HoldsFirsts (Call.afterAll calls table) (defined ++ definitions calls) := by
  induction calls generalizing table defined with
  | nil =>
    rw [definitions, List.filterMap_nil, List.append_nil]
    exact h
  | cons c calls ih =>
    rw [definitions_cons, ← List.append_assoc]
    exact ih (h.after c)

end HoldsFirsts

/-! ## The map of first definitions -/

/-- After the calls, the table is a map in which the first definition of a name wins, and which keeps the names in their
order. -/
structure FirstWins (calls : List Call) (table : SymbolTable) : Prop where
  /-- A name stands for what it was first defined as. -/
  get? : ∀ name, (Call.get? name).perform table = .ok (.symbol ((definitions calls).lookup name)) table
  /-- Whatever is called later does not change that. -/
  get?_later : ∀ name symbol later, (definitions calls).lookup name = some symbol →
    (Call.get? name).perform (Call.afterAll later table) = .ok (.symbol (some symbol)) (Call.afterAll later table)
  contains : ∀ name, (Call.contains name).perform table = .ok (.truth ((definitions calls).lookup name).isSome) table
  /-- A call that wants a name to be free is refused just if the name was defined before. -/
  refused_iff : ∀ (c : Call) name l, c.claimed? = some (name, l) →
    (c.Refused table ↔ ∃ symbol, .define name symbol ∈ calls)
  /-- The refusal has a note at the place of the first definition, if that is known. -/
  refusal : ∀ (c : Call) name l fault later, c.claimed? = some (name, l) → c.perform table = .error fault later →
    ∃ first, (definitions calls).lookup name = some first ∧ fault.location = l ∧
      fault.cause.category = .duplicateSymbol ∧ fault.message = s!"redefinition of '{name}'" ∧
      fault.cause.notes = first.location.toList.map fun place => (some place, s!"'{name}' previously defined here")
  /-- Only a definition that is not refused changes the table. -/
  after_eq : ∀ c : Call, c.definition? = none ∨ c.Refused table → c.after table = table
  /-- The names are listed once each, in the order of their first definitions. -/
  names : Call.names.perform table = .ok (.names ((definitions calls).map Prod.fst).eraseDups) table
  nodup : ((definitions calls).map Prod.fst).eraseDups.Nodup
  size : Call.size.perform table = .ok (.number ((definitions calls).map Prod.fst).eraseDups.length) table
  /-- The first definitions of one kind are listed in that order too. -/
  ofKind : ∀ kind, (Call.ofKind kind).perform table =
    .ok (.entries ((firsts (definitions calls)).filter fun e => e.2.meaning.kind = kind)) table
  /-- Each first definition is listed under one kind. -/
  ofKind_perm :
    (table.ofKind .label ++ table.ofKind .region ++ table.ofKind .constant).Perm (firsts (definitions calls))

/-- Whatever a table that starts empty is called for, and whatever it refuses, it stays a map in which the first
definition of a name wins. -/
theorem afterAll_firstWins (calls : List Call) : FirstWins calls (Call.afterAll calls {}) := by
  generalize htable : Call.afterAll calls {} = table
  have h : HoldsFirsts table (definitions calls) := htable ▸ HoldsFirsts.empty.afterAll calls
  have hsize : table.size = ((definitions calls).map Prod.fst).eraseDups.length := by
    rw [← h.names_eq, SymbolTable.names, List.length_map]
    rfl
  refine ⟨fun name => ?_, fun name symbol later hfirst => ?_, fun name => ?_, fun c name l hc => ?_,
    fun c name l fault later hc hrefused => ?_, fun c hc => ?_, ?_, h.names_eq ▸ h.nodup, ?_, fun kind => ?_, ?_⟩
  · simp only [Call.perform, h.get?_eq]
  · have hlater : (Call.afterAll later table).get? name = some symbol := by
      rw [(h.afterAll later).get?_eq, List.lookup_append, hfirst, Option.some_or]
    simp only [Call.perform, hlater]
  · simp only [Call.perform, contains, h.get?_eq]
  · rw [Call.refused_iff hc, h.get?_eq, exists_lookup_definitions_iff]
  · obtain ⟨first, hfirst, rfl, -⟩ := (Call.perform_eq_error_iff hc).1 hrefused
    refine ⟨first, h.get?_eq name ▸ hfirst, rfl, rfl, rfl, ?_⟩
    cases hplace : first.location <;> rfl
  · rcases hc with hnone | hrefused
    · exact Call.after_of_definition?_eq_none hnone table
    · exact Call.after_of_refused hrefused
  · simp only [Call.perform, h.names_eq]
  · simp only [Call.perform, hsize]
  · simp only [Call.perform, SymbolTable.ofKind, h.entries_eq]
  · exact h.entries_eq ▸ ofKind_perm table

/-- A region is refused under the name of a constant, and a label behind it is defined all the same. -/
example :
    (Call.afterAll [.define "x" ⟨none, .constant 1⟩, .define "x" ⟨none, .region 0 8⟩, .get? "x",
        .define "y" ⟨none, .label 2⟩] {}).entries =
      [("x", ⟨none, .constant 1⟩), ("y", ⟨none, .label 2⟩)] := by decide

end AvmAssembler.SymbolTable
