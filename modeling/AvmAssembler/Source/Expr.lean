import AvmAssembler.ElementType
import AvmAssembler.Location
import AvmAssembler.Operator

/-! # Expressions

Expressions as trees. A node that was read from source knows where it stands there; one that was made otherwise may
stand nowhere.
-/

namespace AvmAssembler

/-- What `sizeof` is asked about: a variable, by name, or an element type. -/
inductive SizeofTarget where
  | name (location : Option Location) (name : String)
  | type (location : Option Location) (type : ElementType)
  deriving DecidableEq, Inhabited

/-- An expression. Strings and fills are expressions of the grammar but have a meaning only as initializers of a
variable. A `foreign` node is a tree that is no expression at all; its kind is kept for messages. -/
inductive Expr where
  | integer (location : Option Location) (value : Int)
  | float (location : Option Location) (bits : UInt64)
  | string (location : Option Location) (text : String)
  | name (location : Option Location) (name : String)
  | type (location : Option Location) (type : ElementType)
  | apply (location : Option Location) (sign : OperatorSign) (operands : List Expr)
  | sizeof (location : Option Location) (target : SizeofTarget)
  | fill (location : Option Location) (value count : Expr)
  | foreign (location : Option Location) (kind : String)
  deriving Inhabited

namespace Expr

def location : Expr → Option Location
  | integer l _ | float l _ | string l _ | name l _ | type l _ | apply l _ _ | sizeof l _ | fill l _ _
  | foreign l _ => l

def kind : Expr → String
  | integer .. => "IntLiteral"
  | float .. => "FloatLiteral"
  | string .. => "StringLiteral"
  | name .. => "Identifier"
  | type .. => "TypeName"
  | apply .. => "BinaryOp"
  | sizeof .. => "SizeOf"
  | fill .. => "Fill"
  | foreign _ kind => kind

end Expr

end AvmAssembler
