import AvmAssembler.Proofs.Assembly.Redefinition
import AvmAssembler.Proofs.Relocation

/-! # Relocated programs

What a program is compiled to does not depend on the places of its nodes, but for the files that they name: a path to be
embedded is seen from there. A program that is moved within its files has the same image, and its symbols and what is
reported of it are moved along.
-/

namespace AvmAssembler

open Correspondence

section

variable (f : Location → Location)

def Symbol.relocate (s : Symbol) : Symbol :=
  { s with location := s.location.map f }

def SymbolTable.relocate (table : SymbolTable) : SymbolTable :=
  ⟨table.entries.map fun e => (e.1, e.2.relocate f)⟩

def Pending.relocate (pending : Pending) : Pending :=
  pending.map fun e => (e.1, e.2.map f)

def Assembly.relocate (a : Assembly) : Assembly :=
  { a with symbols := a.symbols.relocate f, journal := a.journal.relocate f }

namespace Assembly

/-- In a pass, assemblies correspond to what they are moved to. -/
abbrev moving : Correspondence Abort Assembly :=
  .ofMoves (Assembly.relocate f) (Abort.relocate f)

/-- While a statement is processed, its fault is moved as well. -/
abbrev movingFault : Correspondence Fault Assembly :=
  .ofMoves (Assembly.relocate f) (Fault.relocate f)

abbrev movingObstacle : Correspondence Obstacle Assembly :=
  .ofMoves (Assembly.relocate f) (Obstacle.relocate f)

end Assembly

end

variable {f : Location → Location}

/-- Moving what is found is finding what is moved. -/
theorem lookup_map_snd {α β : Type} (g : α → β) (entries : List (String × α)) (name : String) :
    (entries.map fun e => (e.1, g e.2)).lookup name = (entries.lookup name).map g := by
  induction entries with
  | nil => rfl
  | cons e entries ih =>
    obtain ⟨key, a⟩ := e
    simp only [List.map_cons, List.lookup_cons]
    cases name == key with
    | true => rfl
    | false => exact ih

theorem Pending.lookup_relocate (pending : Pending) (name : String) :
    (pending.relocate f).lookup name = (pending.lookup name).map (Option.map f) :=
  lookup_map_snd (Option.map f) pending name

namespace SymbolTable

variable {table : SymbolTable}

@[simp] theorem get?_relocate (name : String) :
    (table.relocate f).get? name = (table.get? name).map (Symbol.relocate f) :=
  lookup_map_snd (Symbol.relocate f) table.entries name

@[simp] theorem names_relocate : (table.relocate f).names = table.names := by
  simp [names, relocate]

@[simp] theorem size_relocate : (table.relocate f).size = table.size := by
  simp [size, relocate]

theorem checkFree_relocate (table : SymbolTable) (name : String) (l : Option Location) :
    (table.relocate f).checkFree name (l.map f) = (table.checkFree name l).mapError (Fault.relocate f) := by
  rw [checkFree, checkFree, get?_relocate]
  cases table.get? name <;> rfl

theorem push_relocate (name : String) (symbol : Symbol) :
    (table.relocate f).push name (symbol.relocate f) = (table.push name symbol).relocate f := by
  simp [push, relocate]

theorem define_relocate (name : String) (symbol : Symbol) :
    (table.relocate f).define name (symbol.relocate f) =
      ((table.define name symbol).map (relocate f)).mapError (Fault.relocate f) := by
  have hfree := table.checkFree_relocate (f := f) name symbol.location
  rw [define, define, push_relocate]
  change Except.map _ ((table.relocate f).checkFree name (symbol.location.map f)) = _
  rw [hfree]
  cases table.checkFree name symbol.location <;> rfl

end SymbolTable

/-! ## Values -/

namespace Expr

variable {table : SymbolTable} {pending : Pending}

theorem undefined_relocate (l : Option Location) (name : String) :
    undefined (table.relocate f) (pending.relocate f) (l.map f) name =
      (undefined table pending l name).relocate f := by
  have hsimilar : (table.relocate f).similar name = table.similar name := by
    rw [SymbolTable.similar, SymbolTable.similar, SymbolTable.names_relocate]
  rw [undefined, undefined, Pending.lookup_relocate, hsimilar]
  rcases pending.lookup name with _ | _ | _ <;> rfl

theorem nameValue_relocate (l : Option Location) (name : String) :
    nameValue (table.relocate f) (pending.relocate f) (l.map f) name =
      (nameValue table pending l name).mapError (Fault.relocate f) := by
  rw [nameValue, nameValue, SymbolTable.get?_relocate, undefined_relocate]
  cases table.get? name <;> rfl

theorem sizeofValue_relocate (target : SizeofTarget) :
    sizeofValue (table.relocate f) (pending.relocate f) (target.relocate f) =
      (sizeofValue table pending target).mapError (Fault.relocate f) := by
  cases target with
  | type l t => rfl
  | name l n =>
    rw [SizeofTarget.relocate, sizeofValue, sizeofValue, SymbolTable.get?_relocate, undefined_relocate]
    rcases table.get? n with _ | ⟨l', _ | _ | _⟩ <;> rfl

/-- The causes of faults of an operator name no place. -/
theorem apply_mapError (sign : OperatorSign) (x y : Int) :
    (sign.apply x y).mapError (Cause.relocate f) = sign.apply x y := by
  cases sign with
  | unknown => rfl
  | known o =>
    cases o with
    | add | sub | mul | conj | disj => rfl
    | div | mod =>
      simp only [OperatorSign.apply, Operator.apply]
      split <;> rfl
    | pow =>
      simp only [OperatorSign.apply, Operator.apply]
      split <;> rfl
    | shiftRight | shiftLeft =>
      simp only [OperatorSign.apply, Operator.apply, Operator.shift]
      split
      · rfl
      · split <;> rfl

mutual

theorem value_relocate (e : Expr) :
    (e.relocate f).value (table.relocate f) (pending.relocate f) =
      (e.value table pending).mapError (Fault.relocate f) := by
  match e with
  | .integer .. | .float .. | .string .. | .type .. | .fill .. | .foreign .. => rfl
  | .name l n => exact nameValue_relocate l n
  | .sizeof l target => exact sizeofValue_relocate target
  | .apply l sign [] => rfl
  | .apply l sign [first] => rfl
  | .apply l sign (first :: second :: rest) =>
    rw [Expr.relocate, relocateAll, relocateAll, value, value, value_relocate first]
    cases first.value table pending with
    | error fault => rfl
    | ok x => exact applyAll_relocate sign x (second :: rest)

theorem applyAll_relocate (sign : OperatorSign) (x : Int) (operands : List Expr) :
    applyAll (table.relocate f) (pending.relocate f) sign x (relocateAll f operands) =
      (applyAll table pending sign x operands).mapError (Fault.relocate f) := by
  match operands with
  | [] => rfl
  | operand :: rest =>
    rw [relocateAll, applyAll, applyAll, value_relocate operand]
    cases operand.value table pending with
    | error fault => rfl
    | ok y =>
      have happly := apply_mapError (f := f) sign x y
      simp only [Except.mapError, bind, Except.bind]
      cases hxy : sign.apply x y with
      | ok r => exact applyAll_relocate sign r rest
      | error cause =>
        rw [hxy] at happly
        have hcause : cause.relocate f = cause := Except.error.inj happly
        simp [Fault.relocate, hcause]

end

end Expr

namespace Assembly

/-! ## First pass -/

theorem reporting_relocate {α β : Type} {value : α → β → Prop} {r : Reporting α} {r' : Reporting β}
    (h : (Journal.moving f).Mirrors value r r') : (moving f).Mirrors value (reporting r) (reporting r') := by
  rw [reporting_eq, reporting_eq]
  refine Mirrors.part (fun a b hab => ⟨h, congrArg Assembly.journal hab, ?_⟩) fun _ _ h => h
  rintro j _ rfl
  exact congrArg (fun b => { b with journal := j.relocate f }) hab

theorem bindLabels_relocate (address : Nat) (declared : Pending) (ss : List Statement) :
    (moving f).Mirrors Eq (bindLabels address declared ss)
      (bindLabels address (declared.relocate f) (ss.map (Statement.relocate f))) := by
  have hreport (fault : Fault) : (moving f).Mirrors Eq (reporting (Journal.report fault))
      (reporting (Journal.report (fault.relocate f))) := reporting_relocate (Journal.report_relocate fault)
  induction ss generalizing address declared with
  | nil => exact .pure rfl
  | cons s rest ih =>
    have hlate (name : String) (l : Option Location) : (moving f).Mirrors Eq
        (if (declared.lookup name).isSome then bindLabels address declared rest
          else bindLabels address (declared ++ [(name, l)]) rest)
        (if ((declared.relocate f).lookup name).isSome then
            bindLabels address (declared.relocate f) (rest.map (Statement.relocate f))
          else bindLabels address (declared.relocate f ++ [(name, l.map f)]) (rest.map (Statement.relocate f))) := by
      rw [Pending.lookup_relocate, Option.isSome_map]
      split
      · exact ih address declared
      · have happend : declared.relocate f ++ [(name, l.map f)] = Pending.relocate f (declared ++ [(name, l)]) := by
          simp [Pending.relocate]
        exact happend ▸ ih address (declared ++ [(name, l)])
    cases s with
    | label l name =>
      rw [List.map_cons, Statement.relocate, bindLabels, bindLabels, Pending.lookup_relocate]
      cases declared.lookup name with
      | some first => exact (hreport _).bind fun _ _ _ => ih address declared
      | none =>
        refine .get ?_
        rintro a _ rfl
        have hdefine : (a.relocate f).symbols.define name ⟨l.map f, .label address⟩ = _ :=
          a.symbols.define_relocate name ⟨l, .label address⟩
        rw [hdefine]
        cases a.symbols.define name ⟨l, .label address⟩ with
        | ok symbols =>
          refine Mirrors.bind (.modify ?_) fun _ _ _ => ih address declared
          rintro b _ rfl
          rfl
        | error fault => exact (hreport fault).bind fun _ _ _ => ih address declared
    | instruction l name argument => exact ih (address + 1) declared
    | constant l name e => exact hlate name l
    | region l name type es => exact hlate name l
    | embedding l name path => exact hlate name l
    | foreign l kind => exact ih address declared

theorem resolve_relocate (settings : AssemblySettings) (program : Program) :
    (moving f).Mirrors Eq (resolve settings program) (resolve settings (program.relocate f)) := by
  refine (bindLabels_relocate 0 [] program.statements).bind ?_
  rintro address _ rfl
  refine .get ?_
  rintro a _ rfl
  have hget : (a.relocate f).symbols.get? settings.entryLabel = _ := a.symbols.get?_relocate settings.entryLabel
  have hmissing : (moving f).Mirrors Eq
      (do
        reporting <| Journal.recording <| Diagnostics.record
          ⟨.error, s!"program entry point label '{settings.entryLabel}' not found", none⟩
        pure false)
      (do
        reporting <| Journal.recording <| Diagnostics.record
          ⟨.error, s!"program entry point label '{settings.entryLabel}' not found", none⟩
        pure false) :=
    (reporting_relocate (Journal.recording_relocate (Diagnostics.record_relocate _))).bind fun _ _ _ => .pure rfl
  rw [hget]
  rcases a.symbols.get? settings.entryLabel with _ | ⟨l, index | _ | _⟩
  · exact hmissing
  · refine Mirrors.bind (.modify ?_) fun _ _ _ => .get ?_
    · rintro b _ rfl
      rfl
    rintro b _ rfl
    have hsize : (b.relocate f).symbols.size = b.symbols.size := b.symbols.size_relocate
    rw [hsize]
    have hnote := Journal.note_relocate (f := f) (.resolved b.symbols.size address index)
    refine (reporting_relocate hnote).bind fun _ _ _ => .get ?_
    rintro d _ rfl
    exact .pure rfl
  · exact hmissing
  · exact hmissing

/-! ## Statements -/

theorem orFault_relocate {α : Type} (r : Except Fault α) :
    (movingFault f).Mirrors Eq (orFault r) (orFault (r.mapError (Fault.relocate f))) := by
  cases r with
  | ok x => exact .pure rfl
  | error fault => exact .throw rfl

theorem valueOf_relocate (pending : Pending) (e : Expr) :
    (movingFault f).Mirrors Eq (valueOf pending e) (valueOf (pending.relocate f) (e.relocate f)) := by
  refine .get ?_
  rintro a _ rfl
  have hvalue : (e.relocate f).value (a.relocate f).symbols (pending.relocate f) = _ := Expr.value_relocate e
  rw [hvalue]
  refine (orFault_relocate _).bind ?_
  rintro v _ rfl
  exact .pure rfl

theorem checkFree_relocate (name : String) (l : Option Location) :
    (movingFault f).Mirrors Eq (checkFree name l) (checkFree name (l.map f)) := by
  refine .get ?_
  rintro a _ rfl
  have hfree : (a.relocate f).symbols.checkFree name (l.map f) = _ := a.symbols.checkFree_relocate name l
  rw [hfree]
  exact orFault_relocate _

theorem define_relocate (name : String) (symbol : Symbol) :
    (movingFault f).Mirrors Eq (define name symbol) (define name (symbol.relocate f)) := by
  refine .get ?_
  rintro a _ rfl
  have hdefine : (a.relocate f).symbols.define name (symbol.relocate f) = _ := a.symbols.define_relocate name symbol
  rw [hdefine]
  cases a.symbols.define name symbol with
  | ok symbols =>
    refine .modify ?_
    rintro b _ rfl
    rfl
  | error fault => exact .throw rfl

/-- Steps on the memory and the records alone are the same at other places. -/
theorem modify_relocate {step : Assembly → Assembly} (h : ∀ a, step (a.relocate f) = (step a).relocate f) :
    (movingFault f).Mirrors Eq (modify step) (modify step) := by
  refine .modify ?_
  rintro a _ rfl
  exact h a

theorem appendRegion_relocate (name : String) (l : Option Location) (bytes : List UInt8) :
    (movingFault f).Mirrors Eq (appendRegion name l bytes) (appendRegion name (l.map f) bytes) := by
  refine .get ?_
  rintro a _ rfl
  have happend : (movingFault f).Mirrors Eq (modify fun a : Assembly => { a with memory := a.memory ++ bytes })
      (modify fun a : Assembly => { a with memory := a.memory ++ bytes }) := modify_relocate fun _ => rfl
  exact happend.bind fun _ _ _ => define_relocate name ⟨l, .region a.memory.length bytes.length⟩

theorem appendInstruction_relocate (pending : Pending) (l : Option Location) (name : String) (argument : Option Expr) :
    (movingFault f).Mirrors Eq (appendInstruction pending l name argument)
      (appendInstruction (pending.relocate f) (l.map f) name (argument.map (Expr.relocate f))) := by
  unfold appendInstruction
  cases InstructionSet.byName? name with
  | none => exact .throw rfl
  | some m =>
    dsimp only
    cases m.takesArgument <;> cases argument with
    | none => first
      | exact .throw rfl
      | exact modify_relocate fun _ => rfl
    | some e => first
      | exact .throw rfl
      | refine (valueOf_relocate pending e).bind ?_
        rintro word _ rfl
        exact modify_relocate fun _ => rfl

section

variable (pending : Pending) (type : ElementType)

theorem element_relocate (word : Nat) (l : Option Location) :
    (movingFault f).Mirrors Eq (element word type l) (element word type (l.map f)) := by
  unfold element
  dsimp only
  split
  · refine Mirrors.bind (.modify ?_) fun _ _ _ => .pure rfl
    rintro a _ rfl
    exact congrArg (fun ds => { a.relocate f with journal := { (a.relocate f).journal with diagnostics := ds } })
      (Diagnostics.warn_relocate a.journal.diagnostics ⟨.warning, _, l⟩).symm
  · exact .pure rfl

theorem elements_relocate (l : Option Location) (words : List Nat) :
    (movingFault f).Mirrors Eq (elements type l words) (elements type (l.map f) words) := by
  induction words with
  | nil => exact .pure rfl
  | cons word words ih =>
    refine (element_relocate type word l).bind ?_
    rintro bytes _ rfl
    refine ih.bind ?_
    rintro more _ rfl
    exact .pure rfl

theorem initializerBytes_relocate (e : Expr) :
    (movingFault f).Mirrors Eq (initializerBytes pending type e)
      (initializerBytes (pending.relocate f) type (e.relocate f)) := by
  have hscalar : (movingFault f).Mirrors Eq (do let word ← valueOf pending e; element word type e.location)
      (do
        let word ← valueOf (pending.relocate f) (e.relocate f)
        element word type (e.relocate f).location) := by
    refine (valueOf_relocate pending e).bind ?_
    rintro word _ rfl
    rw [e.relocate_location]
    exact element_relocate type word e.location
  cases e with
  | fill l value count =>
    refine (valueOf_relocate pending value).bind ?_
    rintro word _ rfl
    rw [Expr.relocate_location, Expr.relocate_location]
    refine (element_relocate type word value.location).bind ?_
    rintro bytes _ rfl
    refine (valueOf_relocate pending count).bind ?_
    rintro times _ rfl
    exact .ite (.throw_bind rfl) (.ite (.throw_bind rfl) (.pure rfl))
  | string l text => exact elements_relocate type l _
  | integer | float | name | type | sizeof | apply | foreign => exact hscalar

theorem initializersBytes_relocate (es : List Expr) :
    (movingFault f).Mirrors Eq (initializersBytes pending type es)
      (initializersBytes (pending.relocate f) type (Expr.relocateAll f es)) := by
  induction es with
  | nil => exact .pure rfl
  | cons e es ih =>
    refine (initializerBytes_relocate pending type e).bind ?_
    rintro bytes _ rfl
    refine ih.bind ?_
    rintro more _ rfl
    exact .pure rfl

end

/-- A name that is bound after a failure is bound at its place. -/
theorem orBind_relocate {step step' : Processing α} (name : String) (symbol : Symbol)
    (h : (movingFault f).Mirrors Eq step step') :
    (movingFault f).Mirrors Eq (orBind name symbol step) (orBind name (symbol.relocate f) step') := by
  refine .of_cases fun a a' haa' => ?_
  unfold orBind
  rcases h.cases haa' with ⟨x, b, y, b', hs, hs', rfl, hb⟩ | ⟨fault, b, fault', b', hs, hs', rfl, hb⟩
  · simp only [hs, hs']
    exact .inl ⟨x, b, x, b', rfl, rfl, rfl, hb⟩
  · simp only [hs, hs']
    rcases (define_relocate name symbol).cases hb with ⟨_, d, _, d', hd, hd', -, hsame⟩ | ⟨e, d, _, d', hd, hd', rfl, hsame⟩
    · simp only [hd, hd']
      exact .inr ⟨fault, d, _, d', rfl, rfl, rfl, hsame⟩
    · simp only [hd, hd']
      exact .inr ⟨e, d, _, d', rfl, rfl, rfl, hsame⟩

theorem bindConstant_relocate (pending : Pending) (l : Option Location) (name : String) (e : Expr) :
    (movingFault f).Mirrors Eq (bindConstant pending l name e)
      (bindConstant (pending.relocate f) (l.map f) name (e.relocate f)) := by
  refine (checkFree_relocate name l).bind fun _ _ _ => ?_
  refine (orBind_relocate name ⟨l, .constant 0⟩ (valueOf_relocate pending e)).bind ?_
  rintro word _ rfl
  exact define_relocate name ⟨l, .constant word⟩

theorem bindRegion_relocate (pending : Pending) (l : Option Location) (name : String) (type : ElementType)
    (es : List Expr) : (movingFault f).Mirrors Eq (bindRegion pending l name type es)
      (bindRegion (pending.relocate f) (l.map f) name type (Expr.relocateAll f es)) := by
  refine (checkFree_relocate name l).bind fun _ _ _ => .get ?_
  rintro a _ rfl
  refine (orBind_relocate name ⟨l, .region a.memory.length 0⟩ (initializersBytes_relocate pending type es)).bind ?_
  rintro bytes _ rfl
  exact appendRegion_relocate name l bytes

section

variable (hfile : ∀ l, (f l).file = l.file)

include hfile

/-- A path is seen from the same file. -/
theorem embed_relocate (env : Surroundings) (l : Option Location) (name path : String) :
    (movingObstacle f).Mirrors Eq (embed env l name path) (embed env (l.map f) name path) := by
  have hsource : ((l.map f).map Location.file).getD FileTree.inputName =
      (l.map Location.file).getD FileTree.inputName := by
    cases l with
    | none => rfl
    | some l => exact hfile l
  have hopen : openEmbedded env (l.map f) path = (openEmbedded env l path).mapError (Obstacle.relocate f) := by
    unfold openEmbedded
    rw [hsource]
    dsimp only
    split
    · rfl
    · rfl
    · split <;> rfl
  refine ((checkFree_relocate name l).adaptExcept fun _ _ h => h ▸ rfl).bind fun _ _ _ => ?_
  rw [hopen]
  rcases openEmbedded env l path with obstacle | ⟨resolved, bytes⟩
  · exact .throw rfl
  · refine Mirrors.adaptExcept (.get ?_) fun _ _ h => h ▸ rfl
    rintro a _ rfl
    refine (appendRegion_relocate name l bytes).bind fun _ _ _ => .modify ?_
    rintro b _ rfl
    simp [ofMoves, Assembly.relocate, Journal.relocate, Event.relocate]

theorem process_relocate (env : Surroundings) (pending : Pending) (s : Statement) :
    (movingObstacle f).Mirrors Eq (process env pending s) (process env (pending.relocate f) (s.relocate f)) := by
  have hfault : ∀ fault fault' : Fault, fault' = fault.relocate f →
      Obstacle.fault fault' = (Obstacle.fault fault).relocate f := fun _ _ h => h ▸ rfl
  cases s with
  | label => exact .pure rfl
  | instruction l name argument => exact (appendInstruction_relocate pending l name argument).adaptExcept hfault
  | constant l name e => exact (bindConstant_relocate pending l name e).adaptExcept hfault
  | region l name type es => exact (bindRegion_relocate pending l name type es).adaptExcept hfault
  | embedding l name path => exact embed_relocate hfile env l name path
  | foreign l kind => exact .throw rfl

/-! ## Second pass -/

omit hfile in
theorem attempt_relocate {step step' : Attempt Unit} (h : (movingObstacle f).Mirrors Eq step step') :
    (moving f).Mirrors Eq (attempt step) (attempt step') := by
  refine .of_cases fun a a' haa' => ?_
  rcases h.cases haa' with ⟨x, b, y, b', hs, hs', -, hb⟩ | ⟨obstacle, b, obstacle', b', hs, hs', rfl, hb⟩
  · exact .inl ⟨(), b, (), b', attempt_of_ok hs, attempt_of_ok hs', rfl, hb⟩
  cases obstacle with
  | search e => exact .inr ⟨_, b, _, b', attempt_of_search hs, attempt_of_search hs', rfl, hb⟩
  | fault fault =>
    have hends' : (fault.relocate f).isFatal = fault.isFatal := fault.relocate_isFatal
    cases hends : fault.isFatal with
    | true =>
      exact .inr ⟨_, b, _, b', attempt_of_fatal hs hends, attempt_of_fatal hs' (hends'.trans hends), rfl, hb⟩
    | false =>
      rw [attempt_of_fault hs hends, attempt_of_fault hs' (hends'.trans hends)]
      exact (reporting_relocate (Journal.report_relocate fault)).cases hb

theorem processAll_relocate (env : Surroundings) (pending : Pending) (ss : List Statement) :
    (moving f).Mirrors Eq (processAll env pending ss)
      (processAll env (pending.relocate f) (ss.map (Statement.relocate f))) := by
  induction ss with
  | nil => exact .pure rfl
  | cons s rest ih => exact (attempt_relocate (process_relocate hfile env pending s)).bind fun _ _ _ => ih

omit hfile in
theorem declarations_relocate (ss : List Statement) :
    declarations (ss.map (Statement.relocate f)) = (declarations ss).relocate f := by
  induction ss using List.reverseRecOn with
  | nil => rfl
  | append_singleton done s ih =>
    rw [List.map_append, List.map_singleton, declarations_snoc, declarations_snoc, ih, Statement.relocate_lateName?,
      Statement.relocate_location]
    cases s.lateName? with
    | none => rfl
    | some name =>
      dsimp only
      rw [Pending.lookup_relocate, Option.isSome_map]
      split
      · rfl
      · simp [Pending.relocate]

theorem generate_relocate (settings : AssemblySettings) (program : Program) :
    (moving f).Mirrors Eq (generate settings program) (generate settings (program.relocate f)) := by
  rw [generate, generate]
  have hall := processAll_relocate hfile settings.surroundings (declarations program.statements) program.statements
  rw [← declarations_relocate] at hall
  refine hall.bind fun _ _ _ => .get ?_
  rintro a _ rfl
  refine .ite (.pure rfl) ((reporting_relocate (Journal.note_relocate _)).bind fun _ _ _ => .pure rfl)

/-- A program that is moved within its files is compiled to the same image, and its symbols and reports are moved. -/
theorem compile_relocate (settings : AssemblySettings) (program : Program) :
    (moving f).Mirrors Eq (compile settings program) (compile settings (program.relocate f)) := by
  refine (resolve_relocate settings program).bind ?_
  rintro ready _ rfl
  exact .ite (generate_relocate hfile settings program) (.pure rfl)

end

end Assembly

end AvmAssembler
