import AvmAssembler.Source.Lexeme.Coverage
import AvmAssembler.Text.Lines

/-! # Scanning source text

A cursor holds the characters ahead and their position. Each step skips a gap of blanks and comments and takes the
lexeme after it. A step at malformed input leaves the cursor where the fault was seen, so that scanning may go on.
-/

namespace AvmAssembler

/-- A position in source text, counted from one. -/
structure Position where
  line : Nat := 1
  column : Nat := 1
  deriving DecidableEq, Inhabited

namespace Position

def step (p : Position) (c : Char) : Position :=
  if c = '\n' then ⟨p.line + 1, 1⟩ else ⟨p.line, p.column + 1⟩

def after (p : Position) (cs : List Char) : Position :=
  cs.foldl step p

end Position

structure Source where
  file : String
  lines : Array String

namespace Source

/-- The lines of a text, each without the carriage returns at its end. -/
def ofText (file text : String) : Source :=
  ⟨file, ((Text.splitLines text.toList).map fun l => String.ofList (Text.trimReturns l)).toArray⟩

/-- The text of a line, counted from one. -/
def line (s : Source) (n : Nat) : String :=
  s.lines.getD (n - 1) ""

/-- The location of some characters that start at a position. -/
def locate (s : Source) (p : Position) (length : Nat) : Location :=
  ⟨s.file, p.line, p.column, max length 1, s.line p.line⟩

end Source

/-- The characters ahead and the position of the first of them. -/
structure Cursor where
  rest : List Char
  position : Position := {}
  deriving DecidableEq

namespace Cursor

def ofText (text : String) : Cursor :=
  { rest := text.toList }

/-- Skip blanks and comments. A comment runs from `#` to the end of its line. -/
def skipGap (inComment : Bool) : List Char → Position → Cursor
  | [], p => ⟨[], p⟩
  | c :: cs, p =>
    if inComment then skipGap (c ≠ '\n') cs (p.step c)
    else if Lexeme.isBlank c then skipGap false cs (p.step c)
    else if c = '#' then skipGap true cs (p.step c)
    else ⟨c :: cs, p⟩

/-- The next token or ending, and the cursor after it. -/
def next (source : Source) (cursor : Cursor) : Scanned × Cursor :=
  let start := skipGap false cursor.rest cursor.position
  match start.rest with
  | [] => (.ending (.complete (source.locate start.position 0)), start)
  | c :: cs =>
    let lexeme := Lexeme.scan c cs
    let stop : Cursor := ⟨lexeme.rest, start.position.after lexeme.raw⟩
    match lexeme.content with
    | .token kind text =>
      (.token ⟨kind, String.ofList text, source.locate start.position lexeme.raw.length⟩, stop)
    | .malformed fault place =>
      let position := if place = .start then start.position else stop.position
      (.ending (.malformed fault (source.locate position 1)), stop)

theorem skipGap_rest_length_le (inComment : Bool) (cs : List Char) (p : Position) :
    (skipGap inComment cs p).rest.length ≤ cs.length := by
  induction cs generalizing inComment p with
  | nil => simp [skipGap]
  | cons c cs ih =>
    unfold skipGap
    repeat' split
    all_goals first
      | exact Nat.le_succ_of_le (ih ..)
      | exact Nat.le_refl _

theorem next_token_rest_length_lt {source : Source} {cursor stop : Cursor} {t : Token}
    (h : cursor.next source = (.token t, stop)) : stop.rest.length < cursor.rest.length := by
  have hgap := skipGap_rest_length_le false cursor.rest cursor.position
  unfold next at h
  simp only at h
  split at h
  · simp at h
  · rename_i c cs hstart
    split at h
    · rename_i kind text hcontent
      have hlt := (Lexeme.scan_covers c cs).rest_length_lt hcontent
      obtain ⟨-, rfl⟩ := Prod.mk.inj h
      rw [hstart] at hgap
      exact Nat.lt_of_lt_of_le hlt hgap
    · simp at h

/-- All tokens ahead and the ending after them. -/
def tokens (source : Source) (cursor : Cursor) : List Token × Ending :=
  match _h : cursor.next source with
  | (.token t, stop) =>
    let (ts, ending) := stop.tokens source
    (t :: ts, ending)
  | (.ending ending, _) => ([], ending)
termination_by cursor.rest.length
decreasing_by exact next_token_rest_length_lt _h

/-- The outcomes of a number of steps, which go on after an ending from where the cursor stands. -/
def steps (source : Source) (cursor : Cursor) : Nat → List Scanned
  | 0 => []
  | n + 1 =>
    let (item, stop) := cursor.next source
    item :: steps source stop n

end Cursor

def tokenize (file text : String) : List Token × Ending :=
  (Cursor.ofText text).tokens (Source.ofText file text)

end AvmAssembler
