/-! # Edit distance

The least number of single-character insertions, deletions and substitutions between two texts, computed
row by row. A row holds the distances from one start of the longer text to every start of the shorter one.
-/

namespace AvmAssembler.Text.EditDistance

/-- The rest of the row for the longer text with `c` added. `left` is the entry just computed, `diagonal` the
entry above it, and the pairs that follow are the columns still to do. -/
def extendRow (c : Char) (left diagonal : Nat) : List Char → List Nat → List Nat
  | d :: ds, above :: row =>
    let entry := if c = d then diagonal else 1 + min (min diagonal above) left
    entry :: extendRow c entry above ds row
  | _, _ => []

/-- The row after one more character of the longer text. -/
def nextRow (short : List Char) (c : Char) (index : Nat) : List Nat → List Nat
  | [] => []
  | diagonal :: row => (index + 1) :: extendRow c (index + 1) diagonal short row

/-- The row reached after all characters of the longer text, of which `index` have been used. -/
def lastRow (short : List Char) : (long : List Char) → (index : Nat) → List Nat → List Nat
  | [], _, row => row
  | c :: cs, index, row => lastRow short cs (index + 1) (nextRow short c index row)

/-- The distance when the first text is at least as long as the second. -/
def ofLonger (long short : List Char) : Nat :=
  ((lastRow short long 0 (List.range (short.length + 1))).getLast?).getD 0

def between (s t : List Char) : Nat :=
  if s.length < t.length then ofLonger t s else ofLonger s t

end AvmAssembler.Text.EditDistance
