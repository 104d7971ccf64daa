import AvmAssembler.Proofs.Source.Terminal
import AvmAssembler.Source.Grammar

/-! # Derivations

The grammar as a relation between trees and sequences of terminals: what each kind of expression and statement yields.
Trees are compared up to the places they were read from.
-/

namespace AvmAssembler

/-! ## Trees without places -/

def SizeofTarget.unlocated : SizeofTarget → SizeofTarget
  | name _ n => name none n
  | type _ t => type none t

mutual

def Expr.unlocated : Expr → Expr
  | .integer _ v => .integer none v
  | .float _ bits => .float none bits
  | .string _ text => .string none text
  | .name _ n => .name none n
  | .type _ t => .type none t
  | .apply _ sign operands => .apply none sign (Expr.unlocatedAll operands)
  | .sizeof _ target => .sizeof none target.unlocated
  | .fill _ value count => .fill none value.unlocated count.unlocated
  | .foreign _ kind => .foreign none kind

def Expr.unlocatedAll : List Expr → List Expr
  | [] => []
  | e :: es => e.unlocated :: Expr.unlocatedAll es

end

/-- A statement without the places of its nodes. -/
def Statement.unlocated : Statement → Statement
  | .instruction _ name argument => .instruction none name (argument.map Expr.unlocated)
  | .label _ name => .label none name
  | .constant _ name value => .constant none name value.unlocated
  | .region _ name type initializers => .region none name type (Expr.unlocatedAll initializers)
  | .embedding _ name path => .embedding none name path
  | .foreign _ kind => .foreign none kind

/-! ## Terminals of the grammar -/

namespace Terminal

def openParen : Terminal := ⟨.openParen, "("⟩
def closeParen : Terminal := ⟨.closeParen, ")"⟩
def comma : Terminal := ⟨.comma, ","⟩
def equals : Terminal := ⟨.equals, "="⟩
def fill : Terminal := ⟨.fill, ".."⟩
def name (s : String) : Terminal := ⟨.name, s⟩
def label (s : String) : Terminal := ⟨.label, s⟩
def string (s : String) : Terminal := ⟨.string, s⟩
def type (t : ElementType) : Terminal := ⟨.type t, t.name⟩
def keyword (k : Keyword) : Terminal := ⟨.keyword k, k.word⟩
def operator (o : Operator) : Terminal := ⟨.operator o, o.symbol⟩

/-- The terminal denotes an integer that fits into a word, signed or unsigned: as a numeral or as a character. -/
def Denotes (t : Terminal) (v : Int) : Prop :=
  match t.kind with
  | .integer radix => Numeral.integer radix t.text = .ok v ∧ Numeral.least ≤ v ∧ v ≤ Numeral.greatest
  | .character => ∃ c, t.text = String.ofList [c] ∧ v = c.toNat
  | _ => False

def startsExpression (t : Terminal) : Bool :=
  Grammar.startsExpression ⟨t.kind, t.text, default⟩

end Terminal

def IsPlainName (name : String) : Prop := InstructionSet.isMnemonic name = false

theorem IsPlainName.isMnemonic_eq {name : String} (h : IsPlainName name) :
    InstructionSet.isMnemonic name = false := h

/-! ## What trees yield -/

def SizeofTarget.Yields : SizeofTarget → Terminal → Prop
  | name _ n, t => IsPlainName n ∧ t = .name n
  | type _ ty, t => t = .type ty

mutual

/-- The terminals that an expression is written with. A fill is none by itself. -/
def Expr.Yields : Expr → List Terminal → Prop
  | .integer _ v, ts => ∃ t, t.Denotes v ∧ ts = [t]
  | .float _ bits, ts => ∃ text, Numeral.float text = .ok bits ∧ ts = [⟨.float, text⟩]
  | .string _ text, ts => ts = [.string text]
  | .name _ n, ts => IsPlainName n ∧ ts = [.name n]
  | .type _ t, ts => ts = [.type t]
  | .apply _ sign operands, ts => ∃ o body, sign = .known o ∧ Expr.YieldAll operands body ∧
      ts = .openParen :: .operator o :: (body ++ [.closeParen])
  | .sizeof _ target, ts => ∃ t, target.Yields t ∧
      ts = [.openParen, .keyword .sizeof, t, .closeParen]
  | .fill .., _ | .foreign .., _ => False

def Expr.YieldAll : List Expr → List Terminal → Prop
  | [], ts => ts = []
  | e :: es, ts => ∃ head tail, e.Yields head ∧ Expr.YieldAll es tail ∧ ts = head ++ tail

end

/-- The terminals of an initializer: an expression, or a value and the number of its repetitions. -/
def Expr.InitializerYields : Expr → List Terminal → Prop
  | .fill _ value count, ts => ∃ head tail, value.Yields head ∧ count.Yields tail ∧ ts = head ++ .fill :: tail
  | e, ts => e.Yields ts

def Expr.InitializersYield : List Expr → List Terminal → Prop
  | [], _ => False
  | [e], ts => e.InitializerYields ts
  | e :: es, ts => ∃ head tail, e.InitializerYields head ∧ Expr.InitializersYield es tail ∧
      ts = head ++ .comma :: tail

/-- The terminals of a statement. A push of an expression that does not start with a name may leave out the mnemonic. -/
def Statement.Yields : Statement → List Terminal → Prop
  | .instruction _ name none, ts =>
    (∃ m, InstructionSet.byName? name = some m ∧ m.takesArgument = false) ∧ ts = [.name name]
  | .instruction _ name (some e), ts =>
    (∃ m body, InstructionSet.byName? name = some m ∧ m.takesArgument = true ∧ e.Yields body ∧
      ts = .name name :: body) ∨
    (name = InstructionSet.push ∧ e.Yields ts ∧ ∀ t ∈ ts.head?, t.kind ≠ .name)
  | .label _ name, ts => ts = [.label name]
  | .constant _ name value, ts => ∃ body, IsPlainName name ∧ value.Yields body ∧
      ts = .keyword .declareConstant :: .name name :: .equals :: body
  | .region _ name type initializers, ts => ∃ body, IsPlainName name ∧
      Expr.InitializersYield initializers body ∧
      ts = .keyword .declareVariable :: .name name :: .type type :: .equals :: body
  | .embedding _ name path, ts => IsPlainName name ∧
      ts = [.keyword .embedding, .name name, .string path]
  | .foreign .., _ => False

def Statement.YieldAll : List Statement → List Terminal → Prop
  | [], ts => ts = []
  | s :: ss, ts => ∃ head tail, s.Yields head ∧ Statement.YieldAll ss tail ∧ ts = head ++ tail

theorem Statement.YieldAll.append {ss others : List Statement} {ts us : List Terminal}
    (h : Statement.YieldAll ss ts) (h' : Statement.YieldAll others us) :
    Statement.YieldAll (ss ++ others) (ts ++ us) := by
  induction ss generalizing ts with
  | nil =>
    subst h
    exact h'
  | cons s ss ih =>
    obtain ⟨head, tail, hhead, htail, rfl⟩ := h
    exact ⟨head, tail ++ us, hhead, ih htail, List.append_assoc ..⟩

end AvmAssembler
