/-! # Lines of text

Lines are divided by line feeds. A file read as text has its other line endings turned into line feeds
first; source text held in memory is taken as it is, and only the carriage returns at the end of a line are
dropped when the line is shown.
-/

namespace AvmAssembler.Text

/-- The pieces between line feeds; a text without one is a single line. -/
def splitLines : List Char → List (List Char)
  | [] => [[]]
  | c :: cs =>
    match splitLines cs with
    | [] => [[c]]
    | line :: lines => if c = '\n' then [] :: line :: lines else (c :: line) :: lines

def trimReturns (cs : List Char) : List Char :=
  (cs.reverse.dropWhile (· = '\r')).reverse

/-- Carriage return, alone or with a line feed after it, becomes one line feed. -/
def universalNewlines : List Char → List Char
  | [] => []
  | '\r' :: '\n' :: cs => '\n' :: universalNewlines cs
  | '\r' :: cs => '\n' :: universalNewlines cs
  | c :: cs => c :: universalNewlines cs

end AvmAssembler.Text
