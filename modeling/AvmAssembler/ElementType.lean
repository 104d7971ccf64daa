/-! # Element types

The types of the elements of a variable, with their names and their widths in bytes.
-/

namespace AvmAssembler

inductive ElementType where
  | byte
  | char
  | i16
  | i32
  | i64
  | f64
  deriving DecidableEq, Inhabited

namespace ElementType

def all : List ElementType := [byte, char, i16, i32, i64, f64]

def name : ElementType → String
  | byte => "byte"
  | char => "char"
  | i16 => "i16"
  | i32 => "i32"
  | i64 => "i64"
  | f64 => "f64"

/-- Width of an element in bytes. -/
def size : ElementType → Nat
  | byte | char => 1
  | i16 => 2
  | i32 => 4
  | i64 | f64 => 8

def ofName? (s : String) : Option ElementType :=
  all.find? fun t => t.name = s

theorem ofName?_name (t : ElementType) : ofName? t.name = some t := by
  cases t <;> decide

theorem size_pos (t : ElementType) : 0 < t.size := by
  cases t <;> decide

theorem size_le (t : ElementType) : t.size ≤ 8 := by
  cases t <;> decide

end ElementType

end AvmAssembler
