import AvmAssembler.Text.Styled

/-! # Styled text without its escape sequences

Styling puts escape sequences around a text. When they are taken out again, what is left is the plain text, provided that
it has no escape character of its own.
-/

namespace AvmAssembler.Text

/-! ## Escape sequences -/

/-- An escape sequence: an opening bracket, parameters, intermediate characters and a final character. -/
inductive IsSequence : List Char → Prop
  | intro {parameters intermediates : List Char} {final : Char} :
      (∀ c ∈ parameters, isParameter c = true) → (∀ c ∈ intermediates, isIntermediate c = true) →
      isFinal final = true → IsSequence ('\x1b' :: '[' :: (parameters ++ (intermediates ++ [final])))

inductive Sequences : List Char → Prop
  | nil : Sequences []
  | cons {s more} : IsSequence s → Sequences more → Sequences (s ++ more)

theorem not_between {a b a' b' c : Char} (h : (a ≤ c && c ≤ b) = true) (hapart : b < a' ∨ b' < a) :
    ¬(a' ≤ c && c ≤ b') = true := by
  simp only [Bool.and_eq_true, decide_eq_true_eq, Char.le_def, Char.lt_def, UInt32.le_iff_toNat_le,
    UInt32.lt_iff_toNat_lt] at h hapart ⊢
  omega

theorem afterSequence?_append {parameters intermediates : List Char} {final : Char}
    (hparameters : ∀ c ∈ parameters, isParameter c = true) (hintermediates : ∀ c ∈ intermediates, isIntermediate c = true)
    (hfinal : isFinal final = true) (rest : List Char) :
    afterSequence? (parameters ++ (intermediates ++ final :: rest)) = some rest := by
  have hstop : (intermediates ++ final :: rest).dropWhile isParameter = intermediates ++ final :: rest := by
    cases intermediates with
    | nil => exact List.dropWhile_cons_of_neg (not_between hfinal (by decide))
    | cons c intermediates =>
      exact List.dropWhile_cons_of_neg (not_between (hintermediates c List.mem_cons_self) (by decide))
  have hend : ¬isIntermediate final = true := not_between hfinal (by decide)
  rw [afterSequence?, List.dropWhile_append_of_pos hparameters, hstop, List.dropWhile_append_of_pos hintermediates,
    List.dropWhile_cons_of_neg hend]
  simp [hfinal]

/-! ## Taking sequences out -/

/-- In front of any text, the characters `cs` without their escape sequences are `ds`. -/
def StripsTo (cs ds : List Char) : Prop :=
  ∀ rest, stripSequences (cs ++ rest) = ds ++ stripSequences rest

variable {cs ds cs' ds' : List Char}

theorem StripsTo.strip (h : StripsTo cs ds) : stripSequences cs = ds := by
  simpa [stripSequences] using h []

theorem StripsTo.append (h : StripsTo cs ds) (h' : StripsTo cs' ds') : StripsTo (cs ++ cs') (ds ++ ds') := by
  intro rest
  rw [List.append_assoc, List.append_assoc, h, h']

/-- Characters other than the escape character stay. -/
theorem stripsTo_self (h : '\x1b' ∉ cs) : StripsTo cs cs := by
  intro rest
  induction cs with
  | nil => rfl
  | cons c cs ih =>
    obtain ⟨hc, hcs⟩ : '\x1b' ≠ c ∧ '\x1b' ∉ cs := by simpa using h
    have hplain : stripSequences (c :: (cs ++ rest)) = c :: stripSequences (cs ++ rest) := by
      rw [stripSequences]
      rintro more rfl
      exact absurd rfl hc
    rw [List.cons_append, List.cons_append, hplain, ih hcs]

theorem stripsTo_of_isSequence (h : IsSequence cs) : StripsTo cs [] := by
  intro rest
  obtain ⟨hparameters, hintermediates, hfinal⟩ := h
  have hafter := afterSequence?_append hparameters hintermediates hfinal rest
  simp only [List.cons_append, List.append_assoc, List.nil_append]
  rw [stripSequences]
  split <;> simp_all

theorem stripsTo_of_sequences (h : Sequences cs) : StripsTo cs [] := by
  induction h with
  | nil => exact fun _ => rfl
  | cons hs _ ih => exact (stripsTo_of_isSequence hs).append ih

theorem StripsTo.intercalate {α : Type} {shown plain : α → String} {separator : String}
    (hseparator : '\x1b' ∉ separator.toList) {items : List α} (h : ∀ a ∈ items, StripsTo (shown a).toList (plain a).toList) :
    StripsTo (separator.intercalate (items.map shown)).toList (separator.intercalate (items.map plain)).toList := by
  induction items with
  | nil => exact fun _ => rfl
  | cons a items ih =>
    obtain ⟨ha, hitems⟩ := List.forall_mem_cons.1 h
    cases items with
    | nil => simpa using ha
    | cons b items =>
      have htext := ha.append ((stripsTo_self hseparator).append (ih hitems))
      simpa [String.intercalate_cons_cons] using htext

/-! ## Styles -/

/-- A styled text stands between escape sequences. -/
def Wraps (style : Style → String → String) : Prop :=
  ∀ appearance text, ∃ opening closing, Sequences opening ∧ Sequences closing ∧
    (style appearance text).toList = opening ++ (text.toList ++ closing)

theorem Wraps.stripsTo {style : Style → String → String} (hstyle : Wraps style) (appearance : Style) {text : String}
    (h : '\x1b' ∉ text.toList) : StripsTo (style appearance text).toList text.toList := by
  obtain ⟨opening, closing, hopening, hclosing, hwrapped⟩ := hstyle appearance text
  have hstrips := (stripsTo_of_sequences hopening).append ((stripsTo_self h).append (stripsTo_of_sequences hclosing))
  simpa [hwrapped] using hstrips

namespace Span

/-- The styled text of a terminal: the sequences of the appearance, the text and a reset. -/
def ansi (appearance : Style) (text : String) : String :=
  opening appearance ++ text ++ "\x1b[0m"

def styling (color : Bool) (appearance : Style) (text : String) : String :=
  if color then ansi appearance text else text

/-- Spans in order, where all but the unstyled texts are styled. -/
def renderBy (style : Style → String → String) (spans : List Span) : String :=
  String.join (spans.map fun s => if s.style = .plain then s.text else style s.style s.text)

section

variable (style : Style → String → String)

@[simp] theorem renderBy_nil : renderBy style [] = "" := rfl

@[simp] theorem renderBy_plain (text : String) (spans : List Span) :
    renderBy style (plain text :: spans) = text ++ renderBy style spans := by
  simp [renderBy, plain]

theorem renderBy_styled {appearance : Style} (h : appearance ≠ .plain) (text : String) (spans : List Span) :
    renderBy style (⟨appearance, text⟩ :: spans) = style appearance text ++ renderBy style spans := by
  simp [renderBy, h]

theorem renderBy_append (spans more : List Span) :
    renderBy style (spans ++ more) = renderBy style spans ++ renderBy style more := by
  simp [renderBy]

end

theorem render_eq_renderBy (color : Bool) (spans : List Span) : render color spans = renderBy (styling color) spans := by
  have hspan : ∀ s : Span, (if color then s.colored else s.text) =
      if s.style = .plain then s.text else styling color s.style s.text := by
    intro s
    cases color with
    | false => simp [styling]
    | true => rfl
  simp only [render, renderBy, hspan]

theorem isSequence_select (digits : List Char) (h : digits.all isParameter = true) :
    IsSequence ('\x1b' :: '[' :: (digits ++ ['m'])) := by
  have hnone : ∀ c ∈ ([] : List Char), isIntermediate c = true := List.forall_mem_nil _
  exact .intro (List.all_eq_true.1 h) hnone (by decide)

theorem sequences_opening (appearance : Style) : Sequences (opening appearance).toList := by
  have hcolor : ∀ c : Color, IsSequence c.code.toList := by
    intro c
    cases c with
    | red => exact isSequence_select ['3', '1'] (by decide)
    | yellow => exact isSequence_select ['3', '3'] (by decide)
    | cyan => exact isSequence_select ['3', '6'] (by decide)
  have hbold : Sequences "\x1b[1m".toList := .cons (isSequence_select ['1'] (by decide)) .nil
  cases appearance with
  | plain => exact .nil
  | bold => exact hbold
  | colored c => simpa [opening] using Sequences.cons (hcolor c) .nil
  | boldColored c =>
    rw [opening, String.toList_append]
    exact .cons (hcolor c) hbold

/-- With color or without, styling only puts escape sequences around a text. -/
theorem wraps_styling (color : Bool) : Wraps (styling color) := by
  intro appearance text
  cases color with
  | false => exact ⟨[], [], .nil, .nil, by simp [styling]⟩
  | true =>
    refine ⟨(opening appearance).toList, "\x1b[0m".toList, sequences_opening appearance,
      .cons (isSequence_select ['0'] (by decide)) .nil, ?_⟩
    simp [styling, ansi]

variable {style : Style → String → String}

/-- Without their escape sequences, styled spans are the plain ones. -/
theorem stripsTo_renderBy (hstyle : Wraps style) {spans : List Span} (h : ∀ s ∈ spans, '\x1b' ∉ s.text.toList) :
    StripsTo (renderBy style spans).toList (render false spans).toList := by
  induction spans with
  | nil => exact fun _ => rfl
  | cons s spans ih =>
    obtain ⟨hs, hspans⟩ := List.forall_mem_cons.1 h
    have hspan : StripsTo (if s.style = .plain then s.text else style s.style s.text).toList s.text.toList := by
      split
      · exact stripsTo_self hs
      · exact hstyle.stripsTo s.style hs
    have htext := hspan.append (ih hspans)
    simpa [renderBy, render] using htext

end Span

end AvmAssembler.Text
