/-! # Styled text

Text for a terminal as a list of spans. Shown plainly, the spans are their texts one after another; shown in
color, a styled span stands between the escape sequences of its style and a reset.
-/

namespace AvmAssembler.Text

inductive Color where
  | red
  | yellow
  | cyan
  deriving DecidableEq

def Color.code : Color → String
  | red => "\x1b[31m"
  | yellow => "\x1b[33m"
  | cyan => "\x1b[36m"

inductive Style where
  | plain
  | bold
  | colored (color : Color)
  | boldColored (color : Color)
  deriving DecidableEq

/-- A piece of text with one appearance. -/
structure Span where
  style : Style
  text : String
  deriving DecidableEq

namespace Span

def plain (s : String) : Span := ⟨.plain, s⟩

/-- The escape sequences before a span; the color comes before the weight. -/
def opening : Style → String
  | .plain => ""
  | .bold => "\x1b[1m"
  | .colored c => c.code
  | .boldColored c => c.code ++ "\x1b[1m"

/-- The span with its escape sequences. Also an empty styled text keeps them. -/
def colored (s : Span) : String :=
  if s.style = .plain then s.text else opening s.style ++ s.text ++ "\x1b[0m"

def render (color : Bool) (spans : List Span) : String :=
  String.join (spans.map fun s => if color then s.colored else s.text)

end Span

/-- Characters of the parameters of an escape sequence. -/
def isParameter (c : Char) : Bool := '0' ≤ c && c ≤ '?'

def isIntermediate (c : Char) : Bool := ' ' ≤ c && c ≤ '/'

def isFinal (c : Char) : Bool := '@' ≤ c && c ≤ '~'

/-- The characters after an escape sequence whose opening bracket has been seen. -/
def afterSequence? (cs : List Char) : Option (List Char) :=
  match (cs.dropWhile isParameter).dropWhile isIntermediate with
  | c :: rest => if isFinal c then some rest else none
  | [] => none

theorem afterSequence?_length_lt {cs rest : List Char} (h : afterSequence? cs = some rest) :
    rest.length < cs.length := by
  have hsub : ((cs.dropWhile isParameter).dropWhile isIntermediate).length ≤ cs.length :=
    Nat.le_trans (List.dropWhile_suffix _).length_le (List.dropWhile_suffix _).length_le
  unfold afterSequence? at h
  split at h
  · rename_i c tail hcs
    split at h
    · obtain rfl := Option.some.inj h
      rw [hcs] at hsub
      exact hsub
    · simp at h
  · simp at h

/-- The text without its escape sequences. -/
def stripSequences : List Char → List Char
  | [] => []
  | '\x1b' :: '[' :: cs =>
    match _h : afterSequence? cs with
    | some rest => stripSequences rest
    | none => '\x1b' :: stripSequences ('[' :: cs)
  | c :: cs => c :: stripSequences cs
termination_by cs => cs.length
decreasing_by
  · have := afterSequence?_length_lt _h
    simp only [List.length_cons]
    omega
  all_goals simp

end AvmAssembler.Text
