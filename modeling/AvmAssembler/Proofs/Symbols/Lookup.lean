import AvmAssembler.SymbolTable
import Mathlib.Data.List.Basic

/-! # Names of a table

Which names a table knows, and which definitions it takes. As long as no name stands twice among its entries, looking up
the names in their order gives the entries back, all of them or those of one kind.
-/

namespace AvmAssembler

/-- What is there already goes before what is put behind it. -/
theorem lookup_snoc {α : Type} (entries : List (String × α)) (name : String) (x : α) (other : String) :
    (entries ++ [(name, x)]).lookup other = (entries.lookup other).or (if other = name then some x else none) := by
  rw [List.lookup_append]
  by_cases hother : other = name
  · simp [hother]
  · simp [List.lookup_cons, hother, beq_false_of_ne hother]

namespace SymbolTable

variable {table later : SymbolTable} {name other : String} {symbol : Symbol} {l : Option Location} {fault : Fault}

/-! ## Looking up -/

theorem get?_eq_none_iff : table.get? name = none ↔ name ∉ table.names := by
  simp only [get?, names, List.lookup_eq_none_iff, List.mem_map, not_exists, not_and]
  constructor
  · intro h e he hname
    have := h e he
    simp [hname] at this
  · intro h e he
    simpa using fun hname => h e he hname.symm

theorem mem_entries_of_get? (h : table.get? name = some symbol) : (name, symbol) ∈ table.entries := by
  obtain ⟨before, after, heq, -⟩ := List.lookup_eq_some_iff.1 h
  simp [heq]

theorem get?_of_mem_entries (hnodup : table.names.Nodup) (h : (name, symbol) ∈ table.entries) :
    table.get? name = some symbol := by
  obtain ⟨before, after, heq⟩ := List.append_of_mem h
  refine List.lookup_eq_some_iff.2 ⟨before, after, heq, fun e he => ?_⟩
  rw [names, heq, List.map_append, List.nodup_append] at hnodup
  have hne := hnodup.2.2 e.1 (List.mem_map_of_mem he) name (by simp)
  simpa using hne.symm

/-! ## Defining -/

theorem checkFree_eq_ok : table.checkFree name l = .ok () ↔ table.get? name = none := by
  unfold checkFree
  cases table.get? name <;> simp

theorem checkFree_eq_error : table.checkFree name l = .error fault ↔
    ∃ symbol, table.get? name = some symbol ∧ fault = ⟨.redefinition name symbol.location, l⟩ := by
  unfold checkFree
  cases table.get? name <;> simp [eq_comm]

theorem define_eq_ok : table.define name symbol = .ok later ↔
    table.get? name = none ∧ later = table.push name symbol := by
  unfold define
  rw [← checkFree_eq_ok]
  cases table.checkFree name symbol.location with
  | ok => simp [Except.map, eq_comm]
  | error fault => simp [Except.map]

theorem define_eq_error : table.define name symbol = .error fault ↔
    ∃ first, table.get? name = some first ∧ fault = ⟨.redefinition name first.location, symbol.location⟩ := by
  rw [← checkFree_eq_error, define]
  cases table.checkFree name symbol.location <;> simp [Except.map]

/-! ## One more definition -/

theorem get?_push (table : SymbolTable) (name : String) (symbol : Symbol) (other : String) :
    (table.push name symbol).get? other = (table.get? other).or (if other = name then some symbol else none) :=
  lookup_snoc table.entries name symbol other

theorem get?_push_of_free (hfree : table.get? name = none) (other : String) :
    (table.push name symbol).get? other = if other = name then some symbol else table.get? other := by
  rw [get?_push]
  split
  · rename_i hother
    rw [hother, hfree, Option.none_or]
  · rw [Option.or_none]

@[simp] theorem names_push (table : SymbolTable) (name : String) (symbol : Symbol) :
    (table.push name symbol).names = table.names ++ [name] := by
  simp [names, push]

theorem nodup_names_push (hnodup : table.names.Nodup) (hfree : table.get? name = none) (symbol : Symbol) :
    (table.push name symbol).names.Nodup := by
  rw [names_push, List.nodup_append]
  refine ⟨hnodup, by simp, fun known hknown new hnew heq => ?_⟩
  obtain rfl : new = name := List.mem_singleton.1 hnew
  exact get?_eq_none_iff.1 hfree (heq ▸ hknown)

/-! ## Listing -/

/-- The names in their order and what they stand for are all of a table. -/
theorem entries_eq (hnodup : table.names.Nodup) :
    table.entries = table.names.filterMap fun name => (table.get? name).map (name, ·) := by
  rw [names, List.filterMap_map]
  have hself : ∀ e ∈ table.entries, some e = (table.get? e.1).map (e.1, ·) := by
    intro e he
    rw [get?_of_mem_entries hnodup he, Option.map_some]
  exact (List.filterMap_some).symm.trans (List.filterMap_congr hself)

/-- Every entry is of one of the kinds. -/
theorem ofKind_perm (table : SymbolTable) :
    (table.ofKind .label ++ table.ofKind .region ++ table.ofKind .constant).Perm table.entries := by
  obtain ⟨entries⟩ := table
  induction entries with
  | nil => exact .nil
  | cons e entries ih =>
    obtain ⟨name, l, meaning⟩ := e
    cases meaning with
    | label index => exact ih.cons _
    | region address size => exact (List.perm_middle.append_right _).trans (ih.cons _)
    | constant value => exact List.perm_middle.trans (ih.cons _)

end SymbolTable

end AvmAssembler
