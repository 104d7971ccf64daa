import AvmAssembler.Diagnostics
import AvmAssembler.Proofs.Number.Written
import AvmAssembler.Proofs.Source.Positions
import AvmAssembler.Proofs.Text.Styling

/-! # Rendered diagnostics

A located diagnostic is shown with its source line and an underline. The line is divided before its tabs are expanded,
and the room in front of the underline is measured on the plain text, so that the underline stands below the located
span with color as without. Taking the escape sequences out of a colored report gives the plain one.
-/

namespace AvmAssembler

open Text (Style Wraps StripsTo stripSequences)
open Text.Span (styling)

/-- The column behind a line without a line feed is one more than its length. -/
theorem Position.behind_line (above : String) {line : String} (h : '\n' ∉ line.toList) :
    (behind (above ++ "\n" ++ line).toList).column = line.length + 1 := by
  rw [Source.toList_append_line, behind, Text.lastLine_append_line _ h, String.length_toList]

namespace Diagnostic

variable {d : Diagnostic} {l : Location} {style : Style → String → String}

/-! ## The divided line -/

theorem expandTabs_append (cs ds : List Char) : expandTabs (cs ++ ds) = expandTabs cs ++ expandTabs ds :=
  List.flatMap_append

theorem not_mem_expandTabs {c : Char} (hc : c ≠ ' ') {cs : List Char} (h : c ∉ cs) : c ∉ expandTabs cs := by
  intro hmem
  obtain ⟨d, hd, hmem⟩ := List.mem_flatMap.1 hmem
  split at hmem
  · exact hc (List.eq_of_mem_replicate hmem)
  · obtain rfl := List.mem_singleton.1 hmem
    exact h hd

/-- The three parts make up the line with its tabs expanded. -/
theorem splitLine_append (h : d.location = some l) :
    d.splitLine.1 ++ (d.splitLine.2.1 ++ d.splitLine.2.2) = expandTabs l.sourceLine.toList := by
  simp only [splitLine, h, ← expandTabs_append, ← List.drop_drop, List.take_append_drop]

theorem not_mem_splitLine {c : Char} (hc : c ≠ ' ') (h : d.location = some l) (hline : c ∉ l.sourceLine.toList) :
    c ∉ d.splitLine.1 ++ (d.splitLine.2.1 ++ d.splitLine.2.2) :=
  splitLine_append h ▸ not_mem_expandTabs hc hline

/-! ## The underline -/

@[simp] theorem toList_blanks (n : Nat) : (blanks n).toList = List.replicate n ' ' :=
  String.toList_ofList

@[simp] theorem toList_underline (span : List Char) :
    (underline span).toList = '^' :: List.replicate (span.length - 1) '~' :=
  String.toList_ofList

theorem underline_length (span : List Char) : (underline span).length = max span.length 1 := by
  rw [← String.length_toList, toList_underline, List.length_cons, List.length_replicate]
  omega

/-- The diagnostic with its styled texts shown in a style. -/
def renderBy (style : Style → String → String) (d : Diagnostic) : String :=
  Text.Span.renderBy style d.spans

theorem render_eq_renderBy (color : Bool) (d : Diagnostic) : d.render color = d.renderBy (styling color) :=
  Text.Span.render_eq_renderBy color d.spans

def gutter (l : Location) : String :=
  "    " ++ toString l.line ++ " | "

/-- What stands in front of the underline of a line: room for the gutter and the part before the span. -/
def margin (d : Diagnostic) (l : Location) : String :=
  "    " ++ blanks (toString l.line).length ++ " | " ++ blanks d.splitLine.1.length

theorem margin_length (d : Diagnostic) (l : Location) :
    (d.margin l).length = (gutter l ++ String.ofList d.splitLine.1).length := by
  simp [margin, gutter, ← String.length_toList]

theorem not_mem_gutter {c : Char} (hspace : c ≠ ' ') (hbar : c ≠ '|') (hsign : c ≠ '-') (hdigit : c.isDigit = false)
    (l : Location) : c ∉ (gutter l).toList := by
  have hline : c ∉ (toString l.line).toList := not_mem_toString hsign hdigit l.line
  simpa [gutter, hspace, hbar] using hline

theorem not_mem_margin {c : Char} (hspace : c ≠ ' ') (hbar : c ≠ '|') (d : Diagnostic) (l : Location) :
    c ∉ (d.margin l).toList := by
  simp [margin, hspace, hbar]

def title (d : Diagnostic) : Text.Span :=
  ⟨.boldColored d.severity.color, d.severity.title ++ ":"⟩

def headline (d : Diagnostic) (l : Location) : List Text.Span :=
  [d.title, .plain " ", ⟨.bold, l.written⟩, .plain (": " ++ d.message)]

theorem spans_none (h : d.location = none) : d.spans = [d.title, .plain (" " ++ d.message)] := by
  simp only [spans, h]
  rfl

theorem spans_headline (h : d.location = some l) (hline : l.sourceLine = "") : d.spans = d.headline l := by
  simp only [spans, h, hline]
  rfl

theorem spans_underlined (h : d.location = some l) (hline : l.sourceLine ≠ "") :
    d.spans = d.headline l ++
      [.plain ("\n" ++ (gutter l ++ String.ofList d.splitLine.1)),
        ⟨.boldColored d.severity.color, String.ofList d.splitLine.2.1⟩, .plain (String.ofList d.splitLine.2.2),
        .plain ("\n" ++ d.margin l), ⟨.colored d.severity.color, underline d.splitLine.2.1⟩] := by
  have hempty : l.sourceLine.isEmpty = false := by simpa using hline
  have hbreak : toString "\n    " = "\n" ++ "    " := by decide
  simp only [spans, h, hempty, hbreak, gutter, margin, headline, title, String.append_assoc]
  rfl

def highlighted (style : Style → String → String) (d : Diagnostic) : String :=
  style (.boldColored d.severity.color) (String.ofList d.splitLine.2.1)

/-- The text of a located diagnostic: its headline, the source line behind the gutter and the underline behind its
margin. -/
theorem renderBy_underlined (h : d.location = some l) (hline : l.sourceLine ≠ "") :
    d.renderBy style =
      Text.Span.renderBy style (d.headline l) ++ "\n" ++ (gutter l ++ String.ofList d.splitLine.1) ++
        d.highlighted style ++ String.ofList d.splitLine.2.2 ++ "\n" ++ d.margin l ++
        style (.colored d.severity.color) (underline d.splitLine.2.1) := by
  rw [renderBy, spans_underlined h hline, Text.Span.renderBy_append, Text.Span.renderBy_plain,
    Text.Span.renderBy_styled _ (by simp), Text.Span.renderBy_plain, Text.Span.renderBy_plain,
    Text.Span.renderBy_styled _ (by simp), Text.Span.renderBy_nil]
  simp only [highlighted, String.append_assoc, String.append_empty]

/-- A source line is shown with its underline. The row of the source line has `left` in front of the highlighted span,
and the row below has `margin` in front of `mark`. These are of one length, so that the span and its underline start at
the same column unless a line feed divides the source line itself. -/
structure Underlined (style : Style → String → String) (d : Diagnostic) (l : Location)
    (above left margin mark : String) : Prop where
  text : d.renderBy style =
    above ++ "\n" ++ left ++ d.highlighted style ++ String.ofList d.splitLine.2.2 ++ "\n" ++ margin ++
      style (.colored d.severity.color) mark
  left_split : ∃ gutter, left = gutter ++ String.ofList d.splitLine.1
  margin_length : margin.length = left.length
  column : '\n' ∉ l.sourceLine.toList →
    (Position.behind
      (above ++ "\n" ++ left ++ d.highlighted style ++ String.ofList d.splitLine.2.2 ++ "\n" ++ margin).toList).column =
    (Position.behind (above ++ "\n" ++ left).toList).column
  mark_length : mark.length = max d.splitLine.2.1.length 1
  mark_caret : mark.toList = '^' :: List.replicate (d.splitLine.2.1.length - 1) '~'

theorem underlined (style : Style → String → String) (h : d.location = some l) (hline : l.sourceLine ≠ "") :
    ∃ above left margin mark, d.Underlined style l above left margin mark := by
  refine ⟨Text.Span.renderBy style (d.headline l), gutter l ++ String.ofList d.splitLine.1, d.margin l,
    underline d.splitLine.2.1, renderBy_underlined h hline, ⟨gutter l, rfl⟩, d.margin_length l, ?_,
    underline_length _, toList_underline _⟩
  intro hnewline
  have hbefore : '\n' ∉ d.splitLine.1 := fun hmem =>
    not_mem_splitLine (by decide) h hnewline (List.mem_append_left _ hmem)
  have hleft : '\n' ∉ (gutter l ++ String.ofList d.splitLine.1).toList := by
    rw [String.toList_append, String.toList_ofList, List.mem_append, not_or]
    exact ⟨not_mem_gutter (by decide) (by decide) (by decide) (by decide) l, hbefore⟩
  rw [Position.behind_line _ (not_mem_margin (by decide) (by decide) d l), Position.behind_line _ hleft, margin_length]

/-! ## Without escape sequences -/

structure EscapeFree (d : Diagnostic) : Prop where
  message : '\x1b' ∉ d.message.toList
  file : ∀ l, d.location = some l → '\x1b' ∉ l.file.toList
  sourceLine : ∀ l, d.location = some l → '\x1b' ∉ l.sourceLine.toList

theorem escape_not_mem_title (d : Diagnostic) : '\x1b' ∉ d.title.text.toList := by
  unfold title
  cases d.severity <;> decide

theorem escape_not_mem_append {a b : String} (ha : '\x1b' ∉ a.toList) (hb : '\x1b' ∉ b.toList) :
    '\x1b' ∉ (a ++ b).toList := by
  rw [String.toList_append, List.mem_append, not_or]
  exact ⟨ha, hb⟩

theorem escape_not_mem_written (hfile : '\x1b' ∉ l.file.toList) : '\x1b' ∉ l.written.toList := by
  have hwritten : l.written = l.file ++ ":" ++ toString l.line ++ ":" ++ toString l.column := rfl
  have hint : ∀ n : Int, '\x1b' ∉ (toString n).toList := not_mem_toString (by decide) (by decide)
  have hcolon : '\x1b' ∉ ":".toList := by decide
  have hline := escape_not_mem_append (escape_not_mem_append hfile hcolon) (hint l.line)
  rw [hwritten]
  exact escape_not_mem_append (escape_not_mem_append hline hcolon) (hint l.column)

theorem escape_not_mem_headline (h : d.EscapeFree) (hlocation : d.location = some l) :
    ∀ s ∈ d.headline l, '\x1b' ∉ s.text.toList := by
  have hplace := escape_not_mem_written (h.file l hlocation)
  have hmessage := escape_not_mem_append (a := ": ") (by decide) h.message
  simp only [headline, List.forall_mem_cons]
  exact ⟨d.escape_not_mem_title, by decide, hplace, hmessage, List.forall_mem_nil _⟩

theorem escape_not_mem_spans (h : d.EscapeFree) : ∀ s ∈ d.spans, '\x1b' ∉ s.text.toList := by
  cases hlocation : d.location with
  | none =>
    have hmessage := escape_not_mem_append (a := " ") (by decide) h.message
    rw [spans_none hlocation]
    simp only [List.forall_mem_cons]
    exact ⟨d.escape_not_mem_title, hmessage, List.forall_mem_nil _⟩
  | some l =>
    have hheadline := escape_not_mem_headline h hlocation
    by_cases hline : l.sourceLine = ""
    · rwa [spans_headline hlocation hline]
    have hgutter : '\x1b' ∉ (gutter l).toList := not_mem_gutter (by decide) (by decide) (by decide) (by decide) l
    have hmargin : '\x1b' ∉ (d.margin l).toList := not_mem_margin (by decide) (by decide) d l
    have hbreak : '\x1b' ∉ "\n".toList := by decide
    have hparts := not_mem_splitLine (by decide) hlocation (h.sourceLine l hlocation)
    simp only [List.mem_append, not_or] at hparts
    obtain ⟨hbefore, hspan, hafter⟩ := hparts
    rw [← String.toList_ofList (l := d.splitLine.1)] at hbefore
    rw [spans_underlined hlocation hline, List.forall_mem_append]
    simp only [List.forall_mem_cons]
    refine ⟨hheadline, escape_not_mem_append hbreak (escape_not_mem_append hgutter hbefore), ?_, ?_,
      escape_not_mem_append hbreak hmargin, ?_, List.forall_mem_nil _⟩
    · simpa using hspan
    · simpa [Text.Span.plain] using hafter
    · simp

theorem stripsTo_renderBy (hstyle : Wraps style) (h : d.EscapeFree) :
    StripsTo (d.renderBy style).toList (d.render false).toList :=
  Text.Span.stripsTo_renderBy hstyle (escape_not_mem_spans h)

theorem render_ne_empty (d : Diagnostic) : d.render false ≠ "" := by
  obtain ⟨more, hspans⟩ : ∃ more, d.spans = d.title :: more := by
    unfold spans
    repeat' split
    all_goals exact ⟨_, rfl⟩
  have htext : d.render false = d.severity.title ++ ":" ++ String.join (more.map Text.Span.text) := by
    simp [render, Text.Span.render, hspans, title]
  rw [htext]
  simp

end Diagnostic

namespace Diagnostics

variable {style : Style → String → String} {ds : Diagnostics}

def reportBy (style : Style → String → String) (ds : Diagnostics) : String :=
  let text := "\n\n".intercalate (ds.entries.map (Diagnostic.renderBy style))
  if !ds.truncated then text
  else if text.isEmpty then truncationMarker
  else s!"{text}\n{truncationMarker}"

theorem report_eq_reportBy (color : Bool) (ds : Diagnostics) : ds.report color = ds.reportBy (styling color) := by
  simp only [report, reportBy, funext (Diagnostic.render_eq_renderBy color)]

theorem entries_eq_nil (h : "\n\n".intercalate (ds.entries.map (Diagnostic.render false)) = "") :
    ds.entries = [] := by
  cases hentries : ds.entries with
  | nil => rfl
  | cons d entries =>
    rw [hentries] at h
    cases entries with
    | nil => exact absurd (by simpa using h) d.render_ne_empty
    | cons => simp [String.intercalate_cons_cons, d.render_ne_empty] at h

theorem stripsTo_reportBy (hstyle : Wraps style) (h : ∀ d ∈ ds.entries, d.EscapeFree) :
    StripsTo (ds.reportBy style).toList (ds.report false).toList := by
  have hseparator : '\x1b' ∉ "\n\n".toList := by decide
  have htext := StripsTo.intercalate hseparator fun d hd => Diagnostic.stripsTo_renderBy hstyle (h d hd)
  have hbreak : StripsTo "\n".toList "\n".toList := Text.stripsTo_self (by decide)
  have hmarker : StripsTo truncationMarker.toList truncationMarker.toList := Text.stripsTo_self (by decide)
  -- Both reports branch alike: a plain report is empty only if there are no entries.
  have hempty : ("\n\n".intercalate (ds.entries.map (Diagnostic.renderBy style))).isEmpty =
      ("\n\n".intercalate (ds.entries.map (Diagnostic.render false))).isEmpty := by
    rw [Bool.eq_iff_iff, String.isEmpty_iff, String.isEmpty_iff]
    constructor
    · intro hshown
      have hstrip := htext.strip
      have hnil : stripSequences "".toList = [] := by simp [stripSequences]
      rw [hshown, hnil] at hstrip
      exact String.toList_injective hstrip.symm
    · intro hplain
      rw [entries_eq_nil hplain]
      rfl
  have hmarked : ∀ text : String,
      (s!"{text}\n{truncationMarker}").toList = text.toList ++ ("\n".toList ++ truncationMarker.toList) := by
    intro text
    change (text ++ "\n" ++ truncationMarker).toList = _
    rw [String.toList_append, String.toList_append, List.append_assoc]
  unfold reportBy report
  simp only [hempty]
  split
  · exact htext
  split
  · exact hmarker
  · rw [hmarked, hmarked]
    exact htext.append (hbreak.append hmarker)

/-- Rendered underlines line up, with color or without, whatever the styles are that are put around a text. The parts of
a source line make up the line with four spaces for each tab, and the underline stands below the located span and is as
long, or a caret if the span is empty. Without the escape sequences, a diagnostic or report is the plain one if its texts
hold no escape character. -/
theorem rendered_underlines (hstyle : Wraps style) :
    (∀ (d : Diagnostic) (l : Location), d.location = some l → l.sourceLine ≠ "" →
      d.splitLine.1 ++ (d.splitLine.2.1 ++ d.splitLine.2.2) =
        l.sourceLine.toList.flatMap (fun c => if c = '\t' then [' ', ' ', ' ', ' '] else [c]) ∧
      ∃ above left margin mark, d.Underlined style l above left margin mark) ∧
    (∀ d : Diagnostic, d.EscapeFree → stripSequences (d.renderBy style).toList = (d.render false).toList) ∧
    (∀ ds : Diagnostics, (∀ d ∈ ds.entries, d.EscapeFree) →
      stripSequences (ds.reportBy style).toList = (ds.report false).toList) ∧
    ∀ color, Wraps (styling color) ∧ (∀ d : Diagnostic, d.render color = d.renderBy (styling color)) ∧
      ∀ ds : Diagnostics, ds.report color = ds.reportBy (styling color) := by
  refine ⟨fun d l h hline => ⟨Diagnostic.splitLine_append h, Diagnostic.underlined style h hline⟩,
    fun d h => (Diagnostic.stripsTo_renderBy hstyle h).strip, fun ds h => (stripsTo_reportBy hstyle h).strip, ?_⟩
  exact fun color => ⟨Text.Span.wraps_styling color, Diagnostic.render_eq_renderBy color, report_eq_reportBy color⟩

/-- A name behind a tab, in color. -/
theorem rendered_underlines_tab :
    let l : Location := ⟨"a.anasm", 3, 2, 3, "\tpsh x"⟩
    let d : Diagnostic := ⟨.error, "no such name", some l⟩
    Wraps (styling true) ∧ (∃ above left margin mark, d.Underlined (styling true) l above left margin mark) ∧
      stripSequences (d.render true).toList = (d.render false).toList := by
  intro l d
  have hwraps := Text.Span.wraps_styling true
  obtain ⟨hlines, hstrips, -, hstyling⟩ := rendered_underlines hwraps
  have hfree : d.EscapeFree := by
    refine ⟨by decide, ?_, ?_⟩
    · rintro _ ⟨⟩
      decide
    · rintro _ ⟨⟩
      decide
  refine ⟨hwraps, (hlines d l rfl (by decide)).2, ?_⟩
  rw [(hstyling true).2.1 d]
  exact hstrips d hfree

example : Diagnostic.render false ⟨.error, "no such name", some ⟨"a.anasm", 3, 2, 3, "\tpsh x"⟩⟩ =
    "Error: a.anasm:3:2: no such name\n    3 |     psh x\n      |     ^~~" := by
  decide +kernel

end Diagnostics

end AvmAssembler
