import AvmAssembler.Proofs.Assembly.Escalation
import AvmAssembler.Proofs.Source.WellFormed

/-! # Faults of shape

A tree can be made that the grammar has no text for: an instruction without the argument that it takes, an unknown
operator, a fill among operands. Compiling reports these with causes of their own. Well-formed statements fail for other
causes only, which concern what names and numbers mean; and since every program that is read consists of such statements,
no error that is recorded for it says that its shape is wrong.
-/

namespace AvmAssembler

/-- The cause is the shape of a statement or of an expression. -/
def Cause.IsOfShape : Cause → Prop
  | noSuchInstruction _ | missingArgument _ | unwantedArgument _ | notAStatement _ | unknownOperator _ | notAValue _
  | misplacedFill => True
  | _ => False

/-- The cause is what a well-formed statement means: its operands, its names, its file. -/
def Cause.IsOfMeaning : Cause → Prop
  | misplacedString | misplacedType _ | fewOperands .. | divisionByZero | moduloByZero | powerRange | zeroToNegative
  | negativeShift | sizeofNonVariable .. | negativeFill | hugeFill _ | undeclared .. | usedEarly .. | redefinition ..
  | embedding .. => True
  | _ => False

/-! ## Wordings -/

/-- The text starts as the wording of a cause of shape does, or it is quoted at the start and ends as these do. -/
def opensShape (cs : List Char) : Bool :=
  ["unknown ", "unexpected ", "fill e", "cannot ev"].any (fun w => w.toList.isPrefixOf cs) ||
    (cs.head? == some '\'' && cs.getLast? == some 't')

theorem Cause.IsOfShape.opensShape {cause : Cause} (h : cause.IsOfShape) : opensShape cause.message.toList = true := by
  cases cause with
  | noSuchInstruction | missingArgument | unwantedArgument | notAStatement | unknownOperator | notAValue
  | misplacedFill =>
    unfold message
    simp [AvmAssembler.opensShape, List.isPrefixOf, toString_text, List.getLast?_cons, List.getLast?_append]
  | _ => exact h.elim

theorem Cause.IsOfMeaning.not_opensShape {cause : Cause} (h : cause.IsOfMeaning) :
    AvmAssembler.opensShape cause.message.toList = false := by
  cases cause with
  | fewOperands sign count =>
    -- The number at the end is written in digits.
    have hlast : (Nat.toDigits 10 count).getLast?.getD ' ' ≠ 't' := by
      cases hc : (Nat.toDigits 10 count).getLast? with
      | none => decide
      | some c =>
        rintro rfl
        exact absurd (isDigit_of_mem_toDigits (List.mem_of_getLast? hc)) (by decide)
    unfold message
    simpa [AvmAssembler.opensShape, List.isPrefixOf, toString_text, List.getLast?_cons, List.getLast?_append]
      using hlast
  | misplacedString | misplacedType | divisionByZero | moduloByZero | powerRange | zeroToNegative | negativeShift
  | sizeofNonVariable | negativeFill | hugeFill | undeclared | usedEarly | redefinition | embedding =>
    unfold message
    simp [AvmAssembler.opensShape, List.isPrefixOf, toString_text, List.getLast?_cons, List.getLast?_append]
  | _ => exact h.elim

theorem Cause.IsOfShape.message_ne {cause other : Cause} (h : cause.IsOfShape) (hother : other.IsOfMeaning) :
    other.message ≠ cause.message := by
  intro heq
  have hopens := h.opensShape
  rw [← heq, hother.not_opensShape] at hopens
  cases hopens

/-! ## Expressions -/

theorem Operator.apply_isOfMeaning {o : Operator} {x y : Int} {cause : Cause} (h : o.apply x y = .error cause) :
    cause.IsOfMeaning := by
  cases o with
  | add | sub | mul | conj | disj => cases h
  | div | mod | pow | shiftRight | shiftLeft =>
    simp only [apply, shift] at h
    repeat' split at h
    all_goals cases h <;> trivial

namespace Expr

variable {table : SymbolTable} {pending : Pending} {fault : Fault}

theorem undefined_isOfMeaning (l : Option Location) (name : String) :
    (undefined table pending l name).cause.IsOfMeaning := by
  unfold undefined
  split <;> trivial

theorem nameValue_isOfMeaning {l : Option Location} {name : String}
    (h : nameValue table pending l name = .error fault) : fault.cause.IsOfMeaning := by
  unfold nameValue at h
  split at h <;> cases h
  exact undefined_isOfMeaning l name

theorem sizeofValue_isOfMeaning {target : SizeofTarget} (h : sizeofValue table pending target = .error fault) :
    fault.cause.IsOfMeaning := by
  unfold sizeofValue at h
  split at h
  · cases h
  · split at h
    · cases h
      exact undefined_isOfMeaning _ _
    · split at h <;> cases h
      trivial

/-- An operator fails because of its operands. -/
theorem applyAll_isOfMeaning {o : Operator} {x : Int} {es : List Expr}
    (hes : ∀ e ∈ es, ∀ fault, value table pending e = .error fault → fault.cause.IsOfMeaning)
    (h : applyAll table pending (.known o) x es = .error fault) : fault.cause.IsOfMeaning := by
  induction es generalizing x with
  | nil => cases h
  | cons e es ih =>
    rw [applyAll] at h
    rcases bind_eq_error.1 h with hvalue | ⟨y, -, hrest⟩
    · exact hes e (by simp) fault hvalue
    · split at hrest
      · exact ih (fun f hf => hes f (by simp [hf])) hrest
      · rename_i cause hcause
        cases hrest
        exact Operator.apply_isOfMeaning hcause

theorem WellFormed.value_error {e : Expr} (h : e.WellFormed) (hfault : value table pending e = .error fault) :
    fault.cause.IsOfMeaning := by
  induction h generalizing fault with
  | integer | float => cases hfault
  | string | type =>
    cases hfault
    trivial
  | name => exact nameValue_isOfMeaning hfault
  | sizeofName | sizeofType => exact sizeofValue_isOfMeaning hfault
  | @apply l o operands _ ih =>
    match operands, ih with
    | [], _ | [_], _ =>
      cases hfault
      trivial
    | first :: second :: rest, ih =>
      rcases bind_eq_error.1 hfault with hfirst | ⟨x, -, hrest⟩
      · exact ih first (by simp) hfirst
      · exact applyAll_isOfMeaning (fun e he _ => ih e (List.mem_cons_of_mem first he)) hrest

end Expr

/-! ## Statements -/

namespace Assembly

/-- In whatever state the step starts, it fails for no reason but one of meaning. -/
def FailsForMeaning {α : Type} (step : Processing α) : Prop :=
  ∀ a, Leads step a (fun _ _ => True) fun fault _ => fault.cause.IsOfMeaning

namespace FailsForMeaning

variable {α β : Type} {step : Processing α} {next : α → Processing β}

theorem pure (x : α) : FailsForMeaning (pure x : Processing α) := fun _ => Leads.of_pure trivial

theorem throw_bind {fault : Fault} (h : fault.cause.IsOfMeaning) :
    FailsForMeaning ((MonadExcept.throw fault : Processing α) >>= next) :=
  fun _ => Leads.of_throw_bind h

theorem bind (h : FailsForMeaning step) (hnext : ∀ x, FailsForMeaning (next x)) : FailsForMeaning (step >>= next) :=
  fun a => Leads.of_bind (h a) (fun x b _ => hnext x b) fun _ _ h => h

theorem get {next : Assembly → Processing β} (h : ∀ a, FailsForMeaning (next a)) : FailsForMeaning (get >>= next) :=
  fun a => Leads.of_get (h a a)

theorem modify (f : Assembly → Assembly) : FailsForMeaning (modify f) := fun _ => Leads.of_modify trivial

theorem ite {c : Prop} [Decidable c] {other : Processing α} (h : FailsForMeaning step)
    (hother : FailsForMeaning other) : FailsForMeaning (if c then step else other) :=
  fun a => Leads.of_ite (h a) (hother a)

theorem orFault {r : Except Fault α} (h : ∀ fault, r = .error fault → fault.cause.IsOfMeaning) :
    FailsForMeaning (orFault r) :=
  fun a => (orFault_leads a r).mono (fun _ _ _ => trivial) fun fault _ hfault => h fault hfault.2

end FailsForMeaning

theorem checkFree_failsForMeaning (name : String) (l : Option Location) : FailsForMeaning (checkFree name l) := by
  refine .get fun a => .orFault fun fault hfault => ?_
  obtain ⟨symbol, -, rfl⟩ := SymbolTable.checkFree_eq_error.1 hfault
  trivial

theorem define_failsForMeaning (name : String) (symbol : Symbol) : FailsForMeaning (define name symbol) := by
  refine .get fun a => .bind (.orFault fun fault hfault => ?_) fun _ => .modify _
  obtain ⟨first, -, rfl⟩ := SymbolTable.define_eq_error.1 hfault
  trivial

theorem orBind_failsForMeaning {α : Type} {name : String} {symbol : Symbol} {step : Processing α}
    (h : FailsForMeaning step) : FailsForMeaning (orBind name symbol step) := by
  intro a
  cases hs : step a with
  | ok x b => exact Leads.of_ok (x := x) (t := b) (by simp only [orBind, hs]) trivial
  | error fault b =>
    have hfault : fault.cause.IsOfMeaning := (h a).at_error hs
    cases hdefine : define name symbol b with
    | ok x c => exact Leads.of_error (e := fault) (t := c) (by simp only [orBind, hs, hdefine]) hfault
    | error e c =>
      have he : e.cause.IsOfMeaning := (define_failsForMeaning name symbol b).at_error hdefine
      exact Leads.of_error (e := e) (t := c) (by simp only [orBind, hs, hdefine]) he

theorem appendRegion_failsForMeaning (name : String) (l : Option Location) (bytes : List UInt8) :
    FailsForMeaning (appendRegion name l bytes) :=
  .get fun _ => .bind (.modify _) fun _ => define_failsForMeaning _ _

section

variable {pending : Pending} {e : Expr} {es : List Expr} (type : ElementType)

theorem valueOf_failsForMeaning (h : e.WellFormed) : FailsForMeaning (valueOf pending e) :=
  .get fun _ => .bind (.orFault fun _ => h.value_error) fun _ => .pure _

theorem element_failsForMeaning (word : Nat) (l : Option Location) : FailsForMeaning (element word type l) :=
  fun a => (element_leads type l a word).mono (fun _ _ _ => trivial) fun _ _ h => h.elim

theorem initializerBytes_failsForMeaning (h : e.WellFormedInitializer) :
    FailsForMeaning (initializerBytes pending type e) := by
  cases h with
  | fill hvalue hcount =>
    refine .bind (valueOf_failsForMeaning hvalue) fun word => .bind (element_failsForMeaning type word _) fun bytes => ?_
    refine .bind (valueOf_failsForMeaning hcount) fun times => ?_
    exact .ite (.throw_bind trivial) (.ite (.throw_bind trivial) (.pure _))
  | value h =>
    have hscalar : FailsForMeaning (do let word ← valueOf pending e; element word type e.location) :=
      .bind (valueOf_failsForMeaning h) fun word => element_failsForMeaning type word _
    cases e with
    | string l text => exact fun a => (elements_leads type l a _).mono (fun _ _ _ => trivial) fun _ _ h => h.elim
    | fill => cases h
    | _ => exact hscalar

theorem initializersBytes_failsForMeaning (h : ∀ e ∈ es, e.WellFormedInitializer) :
    FailsForMeaning (initializersBytes pending type es) := by
  induction es with
  | nil => exact .pure []
  | cons e es ih =>
    obtain ⟨he, hes⟩ := List.forall_mem_cons.1 h
    exact .bind (initializerBytes_failsForMeaning type he) fun _ => .bind (ih hes) fun _ => .pure _

end

def AttemptsForMeaning (step : Attempt Unit) : Prop :=
  ∀ a, Leads step a (fun _ _ => True) fun obstacle _ => ∀ fault, obstacle = .fault fault → fault.cause.IsOfMeaning

theorem FailsForMeaning.attempts {step : Processing Unit} (h : FailsForMeaning step) :
    AttemptsForMeaning (step.adaptExcept .fault) :=
  fun a => (h a).adaptExcept fun _ _ hmeaning _ heq => Obstacle.fault.inj heq ▸ hmeaning

theorem embed_attemptsForMeaning (env : Surroundings) (l : Option Location) (name path : String) :
    AttemptsForMeaning (embed env l name path) := by
  intro a
  refine Leads.of_bind ((checkFree_failsForMeaning name l).attempts a) (fun _ b _ => ?_) fun _ _ h => h
  cases hopen : openEmbedded env l path with
  | error obstacle =>
    refine Leads.of_throw ?_
    rcases openEmbedded_eq_error l hopen with ⟨failure, rfl⟩ | ⟨e, rfl, -⟩
    · rintro _ ⟨⟩
      trivial
    · rintro _ ⟨⟩
  | ok file =>
    have happend : FailsForMeaning (appendFile l name file.1 file.2) :=
      .get fun _ => .bind (appendRegion_failsForMeaning name l file.2) fun _ => .modify _
    exact happend.attempts b

/-- A well-formed statement fails for no reason of shape. -/
theorem process_attemptsForMeaning (env : Surroundings) (pending : Pending) {s : Statement} (h : s.WellFormed) :
    AttemptsForMeaning (process env pending s) := by
  cases h with
  | @nullary l name m hname harity =>
    refine FailsForMeaning.attempts ?_
    simp only [appendInstruction, hname, harity]
    exact .modify _
  | @unary l name m e hname harity he =>
    refine FailsForMeaning.attempts ?_
    simp only [appendInstruction, hname, harity]
    exact .bind (valueOf_failsForMeaning he) fun _ => .modify _
  | label => exact fun _ => Leads.of_pure trivial
  | constant _ he =>
    refine FailsForMeaning.attempts (.bind (checkFree_failsForMeaning _ _) fun _ => .bind ?_ fun _ =>
      define_failsForMeaning _ _)
    exact orBind_failsForMeaning (valueOf_failsForMeaning he)
  | region _ _ hes =>
    refine FailsForMeaning.attempts (.bind (checkFree_failsForMeaning _ _) fun _ => .get fun _ => .bind ?_ fun _ =>
      appendRegion_failsForMeaning _ _ _)
    exact orBind_failsForMeaning (initializersBytes_failsForMeaning _ hes)
  | @embedding l name path _ => exact embed_attemptsForMeaning env l name path

end Assembly

/-! ## What is recorded -/

open Diagnostics

def Report.IsOfMeaning : Report → Prop
  | warning .. => True
  | missingEntry _ => False
  | fault f => f.cause.IsOfMeaning

def Diagnostic.ReadsOfShape (d : Diagnostic) : Prop :=
  d.severity = .error ∧ ∃ cause : Cause, cause.IsOfShape ∧ d.message = cause.message

theorem Report.IsOfMeaning.not_readsOfShape {r : Report} (h : r.IsOfMeaning) : ¬r.head.ReadsOfShape := by
  rintro ⟨hseverity, cause, hshape, hmessage⟩
  cases r with
  | warning message l => cases hseverity
  | missingEntry label => exact h
  | fault f => exact hshape.message_ne h hmessage

/-- However the second pass of a program of well-formed statements ends, it records faults of meaning and warnings. -/
theorem Assembly.generate_explains (settings : AssemblySettings) {program : Program}
    (h : ∀ s ∈ program.statements, s.WellFormed) (a : Assembly) :
    Explains Report.IsOfMeaning a.journal.diagnostics
      (endState (generate settings program) a).journal.diagnostics := by
  have hescalates : Escalates (fun a => a.journal.diagnostics) Report.IsOfMeaning (fun _ => True)
      (generate settings program) a :=
    generate_escalates_of (fun _ _ => trivial) fun s hs pending b _ => process_attemptsForMeaning _ pending (h s hs) b
  exact Call.endState_of_leads (P := fun b => Explains Report.IsOfMeaning a.journal.diagnostics b.journal.diagnostics)
    (hescalates.records.mono (fun _ _ hgrown => hgrown.explains) fun _ _ habort => habort.explains)

theorem Diagnostics.Explains.not_readsOfShape {ds es : Diagnostics} (h : Explains Report.IsOfMeaning ds es) :
    ∃ recorded, es.entries = ds.entries ++ recorded ∧ ∀ d ∈ recorded, ¬d.ReadsOfShape := by
  obtain ⟨recorded, hentries, hall⟩ := h
  refine ⟨recorded, hentries, fun d hd hreads => ?_⟩
  obtain ⟨notes, hnotes⟩ := exists_mem_explained hd (by simp [isNote, hreads.1])
  obtain ⟨r, hr, rfl, -⟩ := hall d notes hnotes
  exact hr.not_readsOfShape hreads

/-- Every statement of a program that is read is well formed, also where faults are recorded on the way. So whatever
state the second pass of the program starts in and however it ends, no error that it records says that an instruction,
its argument, a statement, an operator, an expression or a fill is not one of the grammar. -/
theorem Program.generate_of_read (env : Surroundings) (file text : String) (j : Journal) :
    Leads (Program.read env file text) j
      (fun p _ => (∀ s ∈ p.statements, s.WellFormed) ∧
        ∀ (settings : AssemblySettings) (a : Assembly), ∃ recorded,
          (Assembly.endState (Assembly.generate settings p) a).journal.diagnostics.entries =
            a.journal.diagnostics.entries ++ recorded ∧ ∀ d ∈ recorded, ¬d.ReadsOfShape)
      fun _ _ => True :=
  (Program.read_wellFormed env file text j).mono
    (fun _ _ h => ⟨h, fun settings a => (Assembly.generate_explains settings h a).not_readsOfShape⟩) fun _ _ h => h

/-- A program that was not read may have faults of shape. -/
example :
    let p : Program := ⟨[.instruction none "psh" none, .foreign none "Fill"], "main"⟩
    (Assembly.endState (Assembly.generate ⟨⟨{}, []⟩, "entry"⟩ p) {}).journal.diagnostics.entries.map
      Diagnostic.message = ["'psh' expects an argument", "unexpected Fill statement"] := by
  decide +kernel

end AvmAssembler
