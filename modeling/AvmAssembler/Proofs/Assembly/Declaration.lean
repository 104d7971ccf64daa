import AvmAssembler.Proofs.Assembly.Redefinition

/-! # Declared once

In a program that yields an image no name is declared twice, and the table holds one entry for each declaration, with
its place and its kind: first the labels, then the rest, both in the order of the source. Where a name is declared
again, it is a later declaration that is reported.
-/

namespace AvmAssembler

/-- What a statement declares: a name, at a place, of a kind. -/
def Statement.binding? : Statement → Option (String × Option Location × SymbolKind)
  | label l name => some (name, l, .label)
  | constant l name _ => some (name, l, .constant)
  | region l name .. | embedding l name _ => some (name, l, .region)
  | instruction .. | foreign .. => none

theorem Statement.binding?_name (s : Statement) : s.binding?.map Prod.fst = s.declared? := by
  cases s <;> rfl

def SymbolTable.bindings (table : SymbolTable) : List (String × Option Location × SymbolKind) :=
  table.entries.map fun e => (e.1, e.2.location, e.2.meaning.kind)

theorem SymbolTable.bindings_names (table : SymbolTable) : table.bindings.map Prod.fst = table.names := by
  simp [bindings, names]

theorem Statement.filterMap_binding?_names (ss : List Statement) :
    (ss.filterMap binding?).map Prod.fst = ss.filterMap declared? := by
  rw [List.map_filterMap]
  exact congrArg (List.filterMap · ss) (funext binding?_name)

def isLabelBinding (b : String × Option Location × SymbolKind) : Bool := b.2.2 = .label

open Statement Diagnostics

namespace Assembly

/-! ## What the passes bind -/

/-- The first pass binds the labels. -/
theorem labelEntries_bindings (address : Nat) (ss : List Statement) :
    SymbolTable.bindings ⟨labelEntries address ss⟩ = (ss.filterMap binding?).filter isLabelBinding := by
  induction ss generalizing address with
  | nil => rfl
  | cons s rest ih =>
    cases s with
    | label l name => exact congrArg ((name, l, SymbolKind.label) :: ·) (ih address)
    | instruction l name argument => exact ih (address + 1)
    | constant | region | embedding | foreign => exact ih address

theorem Effect.bindings {env : Surroundings} {a : Assembly} {s : Statement} {g : Growth} (h : Effect env a s g) :
    SymbolTable.bindings ⟨g.entries⟩ = s.binding?.toList.filter fun b => !isLabelBinding b := by
  cases h <;> rfl

/-- The second pass binds the rest. -/
theorem Processed.bindings {env : Surroundings} {ss : List Statement} {a c : Assembly} (h : Processed env a ss c) :
    c.symbols.bindings =
      a.symbols.bindings ++ (ss.filterMap binding?).filter fun b => !isLabelBinding b := by
  induction h with
  | nil a => simp
  | @cons a b c s g rest hg hb _ ih =>
    have hgrown : b.symbols.bindings = a.symbols.bindings ++ SymbolTable.bindings ⟨g.entries⟩ := by
      rw [hb.symbols]
      exact List.map_append
    rw [ih, hgrown, hg.bindings, List.append_assoc, ← List.filter_append]
    cases hs : s.binding? <;> simp [hs]

/-- Both passes together have bound each declaration. -/
theorem bindings_perm {settings : AssemblySettings} {program : Program} {j : Journal} {image : Image} {a : Assembly}
    (h : compile settings program { journal := j } = .ok (some image) a) :
    a.symbols.bindings.Perm (program.statements.filterMap binding?) := by
  obtain ⟨-, himage⟩ := (compile_leads settings program _).at_ok h
  obtain ⟨b, hresolved, ⟨last, hprocessed, hquiet⟩, -, -⟩ := himage image rfl
  have hlabels : b.symbols.bindings = (program.statements.filterMap binding?).filter isLabelBinding := by
    rw [hresolved.symbols]
    exact labelEntries_bindings 0 program.statements
  rw [hquiet.symbols, hprocessed.bindings, hlabels]
  exact List.filter_append_perm _ _

/-- No name of a program that yields an image is declared twice. -/
theorem declared_nodup {settings : AssemblySettings} {program : Program} {j : Journal} {image : Image} {a : Assembly}
    (h : compile settings program { journal := j } = .ok (some image) a) :
    (program.statements.filterMap declared?).Nodup := by
  have hlaidOut : a.LaidOut := (laidOut_empty j).steps ((compile_leads settings program _).at_ok h).1
  have hperm := (bindings_perm h).map Prod.fst
  rw [SymbolTable.bindings_names, filterMap_binding?_names] at hperm
  exact hperm.nodup_iff.1 hlaidOut.names

/-! ## Which declaration is reported -/

/-- Every recorded redefinition of a name is at a statement that declares the name after another one does. -/
def BlamesLater (ss : List Statement) (ds : Diagnostics) : Prop :=
  ∀ e ∈ ds.errors, ∀ name, e.message = s!"redefinition of '{name}'" →
    ∃ before s after, ss = before ++ s :: after ∧ s.declared? = some name ∧ s.location = e.location ∧
      ∃ d ∈ before, d.declared? = some name

theorem blamesLater_of_explains {ss : List Statement} {ds es : Diagnostics}
    (h : Explains (Report.IsOfCompiling ss) ds es) (hfresh : ds.entries = []) : BlamesLater ss es := by
  intro e he name hmessage
  obtain ⟨hmem, herror⟩ := List.mem_filter.1 he
  have herror : e.severity = .error := by simpa using herror
  obtain ⟨r, hr, -, rfl⟩ := h.of_error hmem hfresh herror
  obtain ⟨d, ⟨before, s, after, hss, hdeclares, hlocation, hcited⟩, -⟩ := redefines_of_message hr herror hmessage
  obtain ⟨earliest, hearliest, -⟩ := first?_of_cited? hcited
  refine ⟨before, s, after, hss, hdeclares, hlocation, earliest, List.mem_of_find?_eq_some hearliest, ?_⟩
  simpa using List.find?_some hearliest

/-- A program in which two statements declare the same name yields no image, whatever kinds of declarations they are.
When there is an image, the table has exactly one entry for each declaration, with its place and its kind. However
compiling ends, only declarations that follow another one of their name are reported as redefinitions. -/
theorem compile_declares_once (settings : AssemblySettings) (program : Program) (limit : Int) (showWarnings : Bool) :
    Leads (compile settings program) { journal := { diagnostics := { limit := limit, showWarnings := showWarnings } } }
      (fun image? a =>
        (¬(program.statements.filterMap declared?).Nodup → image? = none) ∧
        (image?.isSome → a.symbols.bindings.Perm (program.statements.filterMap binding?)) ∧
        BlamesLater program.statements a.journal.diagnostics)
      (fun _ a => BlamesLater program.statements a.journal.diagnostics) := by
  generalize hj : ({ diagnostics := { limit := limit, showWarnings := showWarnings } } : Journal) = j
  have hfresh : j.diagnostics.entries = [] := by rw [← hj]
  have hrecorded := compile_recorded settings program j
  cases hresult : compile settings program { journal := j } with
  | ok image? a =>
    refine Leads.of_ok hresult ⟨?_, ?_, blamesLater_of_explains (hrecorded.at_ok hresult).explains hfresh⟩
    · intro htwice
      cases image? with
      | none => rfl
      | some image => exact absurd (declared_nodup hresult) htwice
    · intro hsome
      obtain ⟨image, rfl⟩ := Option.isSome_iff_exists.1 hsome
      exact bindings_perm hresult
  | error e a =>
    exact Leads.of_error hresult (blamesLater_of_explains (hrecorded.at_error hresult).explains hfresh)

end Assembly

end AvmAssembler
