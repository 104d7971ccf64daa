import AvmAssembler.Proofs.Source.Positions
import AvmAssembler.Proofs.Source.Soundness

/-! # Lexemes apart from each other

A text without malformed input consists of the lexemes of its tokens with gaps around them. Where the text has no gap,
the next lexeme decides where a token ends; but it decides nothing that a gap would not. The same lexemes with any
gaps around them, none of these empty between two lexemes, are scanned as the same tokens.
-/

namespace AvmAssembler

/-- The characters that the token stands for, as they are in the line shown with it. -/
def Token.lexeme (t : Token) : List Char :=
  (t.location.sourceLine.toList.drop (t.location.column - 1).toNat).take t.location.length.toNat

theorem Token.Spans.lexeme_eq {t : Token} {done slice : List Char} (h : t.Spans done slice) : t.lexeme = slice :=
  h.shown

/-- Every token of a text is spelled by its lexeme, whatever the text has behind it. -/
theorem Cursor.spelledBy_lexeme {file text : String} {done : List Char} {cursor : Cursor}
    (h : Stands text.toList done cursor) :
    ∀ t ∈ (cursor.tokens (.ofText file text)).1, t.terminal.SpelledBy t.lexeme := by
  fun_induction cursor.tokens (.ofText file text) generalizing done with
  | case1 cursor t stop hnext ts ending hrest ih =>
    obtain ⟨gap, slice, -, -, hspans, hspelled, hstop⟩ := next_spans h hnext
    rw [hrest] at ih
    have ht : t.terminal.SpelledBy t.lexeme := by rwa [hspans.lexeme_eq]
    exact List.forall_mem_cons.2 ⟨ht, ih hstop⟩
  | case2 cursor ending stop hnext => exact fun t ht => absurd ht List.not_mem_nil

/-! ## Gaps around spelled text -/

namespace Gap

variable {gap w rest : List Char}

theorem append (h : Gap w gap) (hw : w ≠ []) (rest : List Char) : Gap (w ++ rest) gap := by
  induction h with
  | nil => exact .nil
  | blank hc _ ih => exact .blank hc ih
  | comment hbody hend _ ih =>
    refine .comment hbody ?_ ih
    rwa [← List.append_assoc, List.head?_append_of_ne_nil _ (by simp [hw])]

theorem of_append (h : Gap (w ++ rest) gap) (hw : w ≠ []) : Gap w gap := by
  induction h with
  | nil => exact .nil
  | blank hc _ ih => exact .blank hc ih
  | comment hbody hend _ ih =>
    refine .comment hbody ?_ ih
    rwa [← List.append_assoc, List.head?_append_of_ne_nil _ (by simp [hw])] at hend

theorem delimited (h : Gap w gap) (hne : gap ≠ []) (rest : List Char) : Lexeme.Delimited (gap ++ rest) := by
  cases h with
  | nil => exact absurd rfl hne
  | blank hc _ => exact Lexeme.delimited_of_isBlank hc _
  | comment => exact Lexeme.delimited_cons (by decide) (by decide) (by decide)

/-- Characters that start no gap are none. -/
theorem eq_nil (h : Gap w gap) (hplain : ∀ c ∈ gap, Lexeme.isBlank c = false ∧ c ≠ '#') : gap = [] := by
  cases h with
  | nil => rfl
  | blank hc _ => exact absurd hc (by simp [(hplain _ (List.mem_cons_self ..)).1])
  | comment => exact absurd rfl (hplain _ (List.mem_cons_self ..)).2

end Gap

/-- No lexeme starts with a line feed. -/
theorem Spells.of_newline {cs : List Char} {ts : List Terminal} (h : Spells ('\n' :: cs) ts) : Spells cs ts := by
  cases h with
  | blank _ h => exact h
  | lexeme hscan _ => exact absurd rfl (Lexeme.ne_newline_of_scan hscan)

/-- A gap in front of spelled text changes nothing. -/
theorem Spells.gap {gap cs : List Char} {ts : List Terminal} (hgap : Gap cs gap) (h : Spells cs ts) :
    Spells (gap ++ cs) ts := by
  induction hgap with
  | nil => exact h
  | blank hc _ ih => exact .blank hc ih
  | @comment body gap hbody hend _ ih =>
    rw [List.cons_append, List.append_assoc]
    cases hahead : gap ++ cs with
    | nil =>
      rw [hahead] at ih
      cases ih
      rw [List.append_nil]
      exact .lastComment hbody
    | cons c ahead =>
      rw [hahead] at hend ih
      obtain rfl : c = '\n' := hend c rfl
      exact .comment hbody ih.of_newline

/-! ## Layouts -/

/-- Lexemes, each with the gap in front of it, and the gap behind the last of them. -/
structure Layout where
  pieces : List (List Char × List Char)
  last : List Char
  isGap : ∀ piece ∈ pieces, Gap piece.2 piece.1
  isGap_last : Gap [] last

namespace Layout

def lexemes (layout : Layout) : List (List Char) :=
  layout.pieces.map Prod.snd

def text (layout : Layout) : List Char :=
  layout.pieces.flatMap (fun piece => piece.1 ++ piece.2) ++ layout.last

/-- There is something between each lexeme and the next. -/
def Separates (layout : Layout) : Prop :=
  ∀ piece ∈ layout.pieces.tail, piece.1 ≠ []

def blank (gap : List Char) (h : Gap [] gap) : Layout :=
  ⟨[], gap, by simp, h⟩

/-- One more lexeme in front, behind a gap. -/
def cons (gap w : List Char) (h : Gap w gap) (layout : Layout) : Layout :=
  ⟨(gap, w) :: layout.pieces, layout.last, List.forall_mem_cons.2 ⟨h, layout.isGap⟩, layout.isGap_last⟩

@[simp] theorem lexemes_cons (gap w : List Char) (h : Gap w gap) (layout : Layout) :
    (cons gap w h layout).lexemes = w :: layout.lexemes := rfl

@[simp] theorem text_cons (gap w : List Char) (h : Gap w gap) (layout : Layout) :
    (cons gap w h layout).text = gap ++ (w ++ layout.text) := by
  simp [text, cons]

/-- Lexemes with gaps between them spell the terminals that each of them spells. -/
theorem spells {pieces : List (List Char × List Char)} {last : List Char} {ts : List Token}
    (hts : ∀ t ∈ ts, t.terminal.SpelledBy t.lexeme) (hlexemes : pieces.map Prod.snd = ts.map Token.lexeme)
    (hgaps : ∀ piece ∈ pieces, Gap piece.2 piece.1) (hlast : Gap [] last)
    (hseparate : ∀ piece ∈ pieces.tail, piece.1 ≠ []) :
    Spells (pieces.flatMap (fun piece => piece.1 ++ piece.2) ++ last) (ts.map Token.terminal) := by
  induction pieces generalizing ts with
  | nil =>
    obtain rfl : ts = [] := List.map_eq_nil_iff.1 hlexemes.symm
    simpa using Spells.gap hlast .nil
  | cons piece pieces ih =>
    obtain ⟨t, ts, rfl⟩ : ∃ t ts', ts = t :: ts' := List.exists_cons_of_ne_nil fun hnil => by simp [hnil] at hlexemes
    obtain ⟨gap, w⟩ := piece
    simp only [List.map_cons, List.cons.injEq] at hlexemes
    obtain ⟨rfl, hlexemes⟩ := hlexemes
    obtain ⟨ht, hts⟩ := List.forall_mem_cons.1 hts
    obtain ⟨hgap, hgaps⟩ := List.forall_mem_cons.1 hgaps
    have hrest := ih hts hlexemes hgaps fun p hp => hseparate p (List.mem_of_mem_tail hp)
    -- what is behind the lexeme: the gap in front of the next one, or the last gap
    have hdelimited : Lexeme.Delimited (pieces.flatMap (fun piece => piece.1 ++ piece.2) ++ last) := by
      cases pieces with
      | nil =>
        by_cases hnil : last = []
        · simp [hnil]
        · simpa using hlast.delimited hnil []
      | cons next pieces =>
        have hnext := (hgaps next (by simp)).delimited (hseparate next (by simp))
        simpa using hnext (next.2 ++ (pieces.flatMap (fun piece => piece.1 ++ piece.2) ++ last))
    have hw : t.lexeme ≠ [] := by
      obtain ⟨c, cs, hw, -⟩ := ht
      simp [hw]
    simpa using (hrest.cons ht hdelimited).gap (hgap.append hw _)

end Layout

/-- A text without malformed input is a layout of the lexemes of its tokens. -/
theorem Tiled.exists_layout {done ahead : List Char} {ts : List Token} {ending : Ending}
    (h : Tiled done ahead ts ending) (hending : ending.IsComplete) :
    ∃ layout : Layout, layout.text = ahead ∧ layout.lexemes = ts.map Token.lexeme := by
  induction h with
  | complete hgap => exact ⟨.blank _ hgap, by simp [Layout.text, Layout.blank], rfl⟩
  | malformed => obtain ⟨l, hl⟩ := hending; cases hl
  | token hgap hspans _ ih =>
    obtain ⟨layout, rfl, hlexemes⟩ := ih hending
    refine ⟨layout.cons _ _ (hgap.of_append hspans.ne_nil), layout.text_cons .., ?_⟩
    rw [Layout.lexemes_cons, hlexemes, List.map_cons, hspans.lexeme_eq]

/-- If there is no place for a gap in a text and it is scanned as one token, it is a lexeme of it. -/
theorem Terminal.spelledBy_of_tokenize {t : Terminal} {w : List Char} {file : String}
    (hplain : ∀ c ∈ w, Lexeme.isBlank c = false ∧ c ≠ '#')
    (htokens : (tokenize file (String.ofList w)).1.map Token.terminal = [t])
    (hending : (tokenize file (String.ofList w)).2.IsComplete) : t.SpelledBy w := by
  have hstands := Cursor.stands_ofText (String.ofList w)
  have htiled : Tiled [] (Cursor.ofText (String.ofList w)).rest (tokenize file (String.ofList w)).1
      (tokenize file (String.ofList w)).2 := Cursor.tokens_tiled hstands
  obtain ⟨⟨pieces, last, hgaps, hlast⟩, htext, hlexemes⟩ := htiled.exists_layout hending
  have hspelled : ∀ u ∈ (tokenize file (String.ofList w)).1, u.terminal.SpelledBy u.lexeme :=
    Cursor.spelledBy_lexeme hstands
  have hlexemes' : pieces.map Prod.snd = (tokenize file (String.ofList w)).1.map Token.lexeme := hlexemes
  obtain ⟨u, hu, rfl⟩ := List.map_eq_singleton_iff.1 htokens
  rw [hu, List.map_singleton] at hlexemes'
  obtain ⟨⟨gap, slice⟩, rfl, hslice⟩ := List.map_eq_singleton_iff.1 hlexemes'
  obtain rfl : slice = u.lexeme := hslice
  have hw : w = gap ++ (u.lexeme ++ last) := by
    simpa [Layout.text, Cursor.ofText] using htext.symm
  subst hw
  have hgap : gap = [] := (hgaps _ (List.mem_singleton_self _)).eq_nil fun c hc => hplain c (by simp [hc])
  have hlast : last = [] := hlast.eq_nil fun c hc => hplain c (by simp [hc])
  rw [hgap, hlast, List.nil_append, List.append_nil]
  exact hspelled u (hu ▸ List.mem_singleton_self u)

/-- A text without malformed input consists of the lexemes of its tokens with gaps around them, and the same lexemes
with any gaps around them, none of these empty between two lexemes, are scanned as tokens of the same kinds and
texts. -/
theorem tokenize_separated (file text : String) (h : (tokenize file text).2.IsComplete) :
    (∃ layout : Layout, layout.text = text.toList ∧
      layout.lexemes = (tokenize file text).1.map Token.lexeme) ∧
    ∀ (layout : Layout) (file' : String), layout.lexemes = (tokenize file text).1.map Token.lexeme →
      layout.Separates →
        (tokenize file' (String.ofList layout.text)).2.IsComplete ∧
        (tokenize file' (String.ofList layout.text)).1.map Token.terminal =
          (tokenize file text).1.map Token.terminal := by
  have hstands := Cursor.stands_ofText text
  refine ⟨(Cursor.tokens_tiled hstands).exists_layout h, fun layout file' hlexemes hseparate => ?_⟩
  have hspelled : ∀ t ∈ (tokenize file text).1, t.terminal.SpelledBy t.lexeme := Cursor.spelledBy_lexeme hstands
  have hspells : Spells (String.ofList layout.text).toList ((tokenize file text).1.map Token.terminal) := by
    rw [String.toList_ofList]
    exact Layout.spells hspelled hlexemes layout.isGap layout.isGap_last hseparate
  obtain ⟨tokens, l, htokens, hterminals⟩ := tokenize_of_spells hspells file'
  rw [htokens]
  exact ⟨⟨l, rfl⟩, hterminals⟩

/-- In `1..4` nothing keeps the number from the fill sign; with a comment and a space there, the tokens are the same. -/
theorem tokenize_separated_fill :
    (tokenize "" "1..4").2.IsComplete ∧ (tokenize "" "1 # one\n.. 4").2.IsComplete ∧
      (tokenize "" "1 # one\n.. 4").1.map Token.terminal = (tokenize "" "1..4").1.map Token.terminal := by
  have hcomplete : (tokenize "" "1..4").2.IsComplete := ⟨(tokenize "" "1..4").2.location, by decide +kernel⟩
  have hthree : (tokenize "" "1..4").1.map Token.lexeme = [['1'], ['.', '.'], ['4']] := by decide +kernel
  have hbody : '\n' ∉ " one".toList := by decide
  have hcomment : Gap ['.', '.'] " # one\n".toList :=
    .blank rfl (.comment hbody (fun _ hc => (Option.some.inj hc).symm) (.blank rfl .nil))
  obtain ⟨layout, htext, hlexemes, hseparate⟩ : ∃ layout : Layout, layout.text = "1 # one\n.. 4".toList ∧
      layout.lexemes = (tokenize "" "1..4").1.map Token.lexeme ∧ layout.Separates :=
    ⟨.cons [] ['1'] .nil (.cons _ ['.', '.'] hcomment (.cons [' '] ['4'] (.blank rfl .nil) (.blank [] .nil))),
      rfl, hthree.symm, by simp [Layout.Separates, Layout.cons, Layout.blank]⟩
  have hspaced := (tokenize_separated "" "1..4" hcomplete).2 layout "" hlexemes hseparate
  rw [htext, String.ofList_toList] at hspaced
  exact ⟨hcomplete, hspaced⟩

end AvmAssembler
