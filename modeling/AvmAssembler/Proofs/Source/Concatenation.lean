import AvmAssembler.Proofs.Source.Relocation
import AvmAssembler.Proofs.Source.Terminal

/-! # Texts on lines of their own

Two texts with a line feed between them are scanned one after the other: the tokens of the first stay as they are, and
those of the second stand so many lines further down. A lexeme ends at a line feed as it does at the end of the text,
and so does a comment.
-/

namespace AvmAssembler

/-! ## Lexemes in front of a line feed -/

namespace Lexeme

def extend (l : Lexeme) (more : List Char) : Lexeme :=
  { l with rest := l.rest ++ more }

section Runs

variable {p : Char → Bool} {e : Char} (hp : p e = false) (cs ds : List Char)

include hp

theorem takeWhile_append_stop : (cs ++ e :: ds).takeWhile p = cs.takeWhile p := by
  induction cs with
  | nil => simp [hp]
  | cons c cs ih => simp only [List.cons_append, List.takeWhile_cons, ih]

theorem dropWhile_append_stop : (cs ++ e :: ds).dropWhile p = cs.dropWhile p ++ e :: ds := by
  induction cs with
  | nil => simp [hp]
  | cons c cs ih =>
    simp only [List.cons_append, List.dropWhile_cons, ih]
    split <;> rfl

end Runs

section Blank

variable {e : Char} (he : isBlank e = true)

include he

theorem isWordChar_of_isBlank : isWordChar e = false :=
  (delimited_of_isBlank he []).isWordChar e rfl

theorem isDigit_of_isBlank : Text.Digit.isDigit e = false :=
  (delimited_of_isBlank he []).isDigit e rfl

theorem asciiDigit_of_isBlank : e.isDigit = false :=
  (delimited_of_isBlank he []).head_false (fun _ => isWordChar_of_isDigit) e rfl

theorem accepts_of_isBlank (radix : Radix) : radix.accepts e = false :=
  (delimited_of_isBlank he []).head_false (fun _ => isWordChar_of_accepts) e rfl

theorem ne_dot_of_isBlank : e ≠ '.' :=
  (delimited_of_isBlank he [] e rfl).2.2

variable (cs ds : List Char)

theorem word_append : word (cs ++ e :: ds) = (word cs).extend (e :: ds) := by
  simp only [word, takeWhile_append_stop (isWordChar_of_isBlank he), dropWhile_append_stop (isWordChar_of_isBlank he),
    extend]

theorem dotted_append : dotted (cs ++ e :: ds) = (dotted cs).extend (e :: ds) := by
  cases cs with
  | nil => simp [dotted, ne_dot_of_isBlank he, isWordChar_of_isBlank he, he, extend, fault]
  | cons c cs =>
    have hword := word_append he (c :: cs) ds
    simp only [word, extend, Lexeme.mk.injEq] at hword
    simp only [dotted, List.cons_append] at hword ⊢
    repeat' split
    all_goals simp_all [extend, fault]

theorem radixDigits_append (radix : Radix) (seen : List Char) :
    radixDigits radix seen (cs ++ e :: ds) = (radixDigits radix seen cs).extend (e :: ds) := by
  have hhead : ((cs.dropWhile radix.accepts ++ e :: ds).head?.filter isWordChar) =
      (cs.dropWhile radix.accepts).head?.filter isWordChar := by
    cases cs.dropWhile radix.accepts with
    | nil => simp [isWordChar_of_isBlank he]
    | cons => rfl
  simp only [radixDigits, takeWhile_append_stop (accepts_of_isBlank he radix),
    dropWhile_append_stop (accepts_of_isBlank he radix), hhead]
  split
  · rfl
  · split <;> rfl

theorem digitAhead_append : digitAhead (cs ++ e :: ds) = digitAhead cs := by
  cases cs with
  | nil => exact isDigit_of_isBlank he
  | cons => rfl

theorem fraction_append (seen : List Char) :
    fraction seen (cs ++ e :: ds) = (fraction seen cs).extend (e :: ds) := by
  simp only [fraction, takeWhile_append_stop (asciiDigit_of_isBlank he),
    dropWhile_append_stop (asciiDigit_of_isBlank he)]
  cases cs.dropWhile Char.isDigit with
  | nil =>
    simp only [List.nil_append, isWordChar_of_isBlank he, ne_dot_of_isBlank he, decide_false, Bool.false_and,
      Bool.or_self, Bool.false_eq_true, if_false]
    split <;> rfl
  | cons c after =>
    simp only [List.cons_append, digitAhead_append he]
    split
    · rfl
    · split <;> rfl

theorem decimalDigits_append (sign : List Char) :
    decimalDigits sign (cs ++ e :: ds) = (decimalDigits sign cs).extend (e :: ds) := by
  simp only [decimalDigits, takeWhile_append_stop (isDigit_of_isBlank he), dropWhile_append_stop (isDigit_of_isBlank he)]
  cases cs.dropWhile Text.Digit.isDigit with
  | nil => simp [isWordChar_of_isBlank he, ne_dot_of_isBlank he, extend]
  | cons c after =>
    simp only [List.cons_append, digitAhead_append he]
    split
    · exact fraction_append he after ds _
    · split <;> rfl

theorem unsigned_append (sign : List Char) :
    unsigned sign (cs ++ e :: ds) = (unsigned sign cs).extend (e :: ds) := by
  have hdigits := decimalDigits_append he cs ds sign
  cases hann : announced? cs with
  | none =>
    have hann' : announced? (cs ++ e :: ds) = none :=
      announced?_append (delimited_of_isBlank he ds) (by rwa [List.append_nil])
    rw [unsigned_of_not_announced hann, unsigned_of_not_announced hann']
    exact hdigits
  | some radix =>
    obtain ⟨c, after, rfl, hread⟩ := unsigned_of_announced sign hann
    rw [List.cons_append, List.cons_append, hread, hread]
    exact radixDigits_append he after ds radix _

theorem number_append : number (cs ++ e :: ds) = (number cs).extend (e :: ds) := by
  by_cases hminus : cs.head? = some '-'
  · obtain ⟨cs, rfl⟩ := List.head?_eq_some_iff.1 hminus
    exact unsigned_append he cs ds ['-']
  · have hminus' : (cs ++ e :: ds).head? ≠ some '-' := by
      cases cs with
      | nil =>
        rintro ⟨⟩
        cases he
      | cons => simpa using hminus
    rw [number_of_ne_minus hminus, number_of_ne_minus hminus']
    exact unsigned_append he cs ds []

end Blank

variable (cs ds : List Char)

def StringBody.extend (b : StringBody) (more : List Char) : StringBody :=
  { b with rest := b.rest ++ more }

theorem stringBody_append_newline :
    stringBody (cs ++ '\n' :: ds) = (stringBody cs).extend ('\n' :: ds) := by
  fun_induction stringBody cs with
  | case1 => rfl
  | case2 => rfl
  | case3 => rfl
  | case4 => rfl
  | case5 => rfl
  | case6 c after hc d hd ih => simp only [List.cons_append, stringBody_escape hd, ih]; rfl
  | case7 c after hc hnone =>
    rw [List.cons_append, List.cons_append, stringBody.eq_6 c _ (fun h => hc h), hnone]
    rfl
  | case8 c after hquote hnewline hend hbreak hescape ih =>
    have hne := ne_backslash_of_cases hend hescape
    simp only [List.cons_append, stringBody_plain hquote hnewline hne, ih]
    rfl

theorem string_append : string (cs ++ '\n' :: ds) = (string cs).extend ('\n' :: ds) := by
  simp only [string, stringBody_append_newline, StringBody.extend]
  split <;> rfl

theorem closeCharacter_append (value : Char) (raw : List Char) :
    closeCharacter value raw (cs ++ '\n' :: ds) = (closeCharacter value raw cs).extend ('\n' :: ds) := by
  match cs with
  | [] => rfl
  | c :: cs =>
    simp only [closeCharacter, List.cons_append]
    split <;> simp_all [extend, fault]

theorem character_append : character (cs ++ '\n' :: ds) = (character cs).extend ('\n' :: ds) := by
  fun_cases character cs with
  | case1 => rfl
  | case2 => rfl
  | case3 => rfl
  | case4 => rfl
  | case5 => rfl
  | case6 c after hbreak d hd =>
    simp only [List.cons_append, character, hd]
    exact closeCharacter_append after ds d _
  | case7 c after hbreak hnone => simp only [List.cons_append, character, hnone]; rfl
  | case8 c after hnewline hquote hend hbreak hescape hbyte =>
    have hne := ne_backslash_of_cases hend hescape
    rw [List.cons_append, character_plain hnewline hquote hne, if_pos hbyte]
    exact closeCharacter_append after ds c _
  | case9 c after hnewline hquote hend hbreak hescape hbyte =>
    have hne := ne_backslash_of_cases hend hescape
    rw [List.cons_append, character_plain hnewline hquote hne, if_neg hbyte]
    rfl

theorem angle_append {c e : Char} (hc : c ≠ e) (operator : Operator) :
    angle c operator (cs ++ e :: ds) = (angle c operator cs).extend (e :: ds) := by
  cases cs with
  | nil => simp [angle, hc.symm, extend, fault]
  | cons d cs =>
    simp only [angle, List.cons_append]
    split <;> rfl

/-- A lexeme ends at a blank as it does at the end of the text, if the literals in quotes do. -/
theorem scan_append_of {e : Char} (he : isBlank e = true) (c : Char)
    (hstring : c = '"' → string (cs ++ e :: ds) = (string cs).extend (e :: ds))
    (hcharacter : c = '\'' → character (cs ++ e :: ds) = (character cs).extend (e :: ds)) :
    scan c (cs ++ e :: ds) = (scan c cs).extend (e :: ds) := by
  have hword := word_append he (c :: cs) ds
  have hnumber := number_append he (c :: cs) ds
  have hangle : ∀ c ∈ ['<', '>'], c ≠ e := by
    rintro c hc rfl
    simp only [List.mem_cons, List.not_mem_nil, or_false] at hc
    rcases hc with rfl | rfl <;> cases he
  unfold scan
  rw [digitAhead_append he]
  split
  · exact hword
  split
  · exact hnumber
  split
  · exact dotted_append he cs ds
  split
  · rename_i hquote
    exact hstring hquote
  split
  · rename_i hsingle
    exact hcharacter hsingle
  split
  · rename_i hless
    exact angle_append cs ds (hangle c (by simp [hless])) .shiftLeft
  split
  · rename_i hgreater
    exact angle_append cs ds (hangle c (by simp [hgreater])) .shiftRight
  split <;> rfl

/-- A lexeme ends at a line feed as it does at the end of the text. -/
theorem scan_append (c : Char) : scan c (cs ++ '\n' :: ds) = (scan c cs).extend ('\n' :: ds) :=
  scan_append_of cs ds rfl c (fun _ => string_append cs ds) (fun _ => character_append cs ds)

end Lexeme

/-! ## Positions and lines -/

def Location.down (n : Nat) (l : Location) : Location :=
  { l with line := l.line + n }

def Position.down (n : Nat) (p : Position) : Position :=
  ⟨p.line + n, p.column⟩

namespace Position

variable (p : Position) (cs ds : List Char)

theorem after_append : p.after (cs ++ ds) = (p.after cs).after ds :=
  List.foldl_append

theorem after_line : (p.after cs).line = p.line + cs.count '\n' := by
  induction cs generalizing p with
  | nil => rfl
  | cons c cs ih =>
    change ((p.step c).after cs).line = _
    rw [ih, step, List.count_cons]
    by_cases hc : c = '\n'
    · simp [hc]
      omega
    · simp [hc]

theorem line_le_after : p.line ≤ (p.after cs).line := by
  rw [after_line]
  omega

theorem step_newline : (p.after cs).step '\n' = ⟨p.line + cs.count '\n' + 1, 1⟩ := by
  change Position.mk ((p.after cs).line + 1) 1 = _
  rw [after_line]

theorem step_down (n : Nat) (p : Position) (c : Char) : (p.step c).down n = (p.down n).step c := by
  simp only [step, down]
  split <;> simp [Nat.add_right_comm]

end Position

namespace Text

theorem splitLines_append (cs ds : List Char) : splitLines (cs ++ '\n' :: ds) = splitLines cs ++ splitLines ds := by
  have hne : ∀ cs : List Char, splitLines cs ≠ [] := by
    intro cs
    cases cs with
    | nil => simp [splitLines]
    | cons c cs =>
      rw [splitLines]
      split
      · simp
      · split <;> simp
  induction cs with
  | nil =>
    change splitLines ('\n' :: ds) = [] :: splitLines ds
    rw [splitLines]
    cases hlines : splitLines ds with
    | nil => exact absurd hlines (hne ds)
    | cons line lines => rfl
  | cons c cs ih =>
    rw [List.cons_append, splitLines, splitLines, ih]
    cases hlines : splitLines cs with
    | nil => exact absurd hlines (hne cs)
    | cons line lines =>
      simp only [List.cons_append]
      split <;> rfl

theorem splitLines_length (cs : List Char) : (splitLines cs).length = cs.count '\n' + 1 := by
  induction cs with
  | nil => rfl
  | cons c cs ih =>
    rw [splitLines, List.count_cons]
    cases hlines : splitLines cs with
    | nil => simp [hlines] at ih
    | cons line lines =>
      rw [hlines, List.length_cons] at ih
      by_cases hc : c = '\n' <;> simp [hc, ih]

end Text

namespace Source

/-- Up to a line, the two sources have the same lines. -/
structure AgreesTo (source whole : Source) (n : Nat) : Prop where
  file : whole.file = source.file
  line : ∀ m ≤ n, whole.line m = source.line m

variable {source whole : Source}

theorem AgreesTo.locate {n : Nat} (h : source.AgreesTo whole n) {p : Position} (hp : p.line ≤ n) (length : Nat) :
    whole.locate p length = source.locate p length := by
  rw [Source.locate, Source.locate, h.file, h.line _ hp]

theorem toList_append_line (a b : String) : (a ++ "\n" ++ b).toList = a.toList ++ '\n' :: b.toList := by
  simp

theorem lines_append (file a b : String) :
    (ofText file (a ++ "\n" ++ b)).lines = (ofText file a).lines ++ (ofText file b).lines := by
  rw [ofText, toList_append_line, Text.splitLines_append, List.map_append, ← List.append_toArray]
  rfl

theorem lines_size (file text : String) : (ofText file text).lines.size = text.toList.count '\n' + 1 := by
  rw [ofText, List.size_toArray, List.length_map, Text.splitLines_length]

/-- A text with another one behind it has the same lines. -/
theorem agreesTo_append (file a b : String) :
    (ofText file a).AgreesTo (ofText file (a ++ "\n" ++ b)) (a.toList.count '\n' + 1) where
  file := rfl
  line n hn := by
    have hsize := lines_size file a
    rw [line, line, lines_append, Array.getD_eq_getD_getElem?, Array.getD_eq_getD_getElem?,
      Array.getElem?_append_left (by omega)]

/-- The lines of the text behind stand so many lines further down. -/
theorem line_append (file a b : String) {n : Nat} (hn : 1 ≤ n) :
    (ofText file (a ++ "\n" ++ b)).line (n + (a ++ "\n").toList.count '\n') = (ofText file b).line n := by
  have hsize := lines_size file a
  have hcount : (a ++ "\n").toList.count '\n' = a.toList.count '\n' + 1 := by simp
  rw [line, line, lines_append, hcount, Array.getD_eq_getD_getElem?, Array.getD_eq_getD_getElem?,
    Array.getElem?_append_right (by omega)]
  congr 2
  omega

theorem locate_down (file a b : String) (p : Position) (length : Nat) (hp : 1 ≤ p.line) :
    (ofText file (a ++ "\n" ++ b)).locate (p.down ((a ++ "\n").toList.count '\n')) length =
      ((ofText file b).locate p length).down ((a ++ "\n").toList.count '\n') := by
  rw [locate, Position.down, line_append file a b hp]
  simp [locate, Location.down, ofText]

end Source

/-! ## Scanning two texts -/

namespace Cursor

variable {source whole : Source} {p : Position}

/-- The gap before a lexeme is as wide with a line behind the text, and a comment at the end of the text ends there. -/
theorem skipGap_append (inComment : Bool) (cs ds : List Char) (p : Position) :
    skipGap inComment (cs ++ '\n' :: ds) p =
      match skipGap inComment cs p with
      | ⟨[], q⟩ => skipGap false ds (q.step '\n')
      | ⟨c :: rest, q⟩ => ⟨c :: (rest ++ '\n' :: ds), q⟩ := by
  induction cs generalizing inComment p with
  | nil => cases inComment <;> simp [skipGap, Lexeme.isBlank]
  | cons c cs ih =>
    rw [List.cons_append, skipGap, skipGap]
    split
    · exact ih _ _
    split
    · exact ih _ _
    split
    · exact ih _ _
    · rfl

/-- What is skipped is the front of the text. -/
theorem exists_gap (inComment : Bool) (cs : List Char) (p : Position) :
    ∃ gap, cs = gap ++ (skipGap inComment cs p).rest ∧ (skipGap inComment cs p).position = p.after gap := by
  induction cs generalizing inComment p with
  | nil => exact ⟨[], rfl, rfl⟩
  | cons c cs ih =>
    have hskip : ∀ inComment, ∃ gap, c :: cs = gap ++ (skipGap inComment cs (p.step c)).rest ∧
        (skipGap inComment cs (p.step c)).position = p.after gap := by
      intro inComment
      obtain ⟨gap, hcs, hq⟩ := ih inComment (p.step c)
      exact ⟨c :: gap, congrArg (c :: ·) hcs, hq⟩
    rw [skipGap]
    split
    · exact hskip _
    split
    · exact hskip _
    split
    · exact hskip _
    · exact ⟨[], rfl, rfl⟩

theorem line_le_of_skipGap {inComment : Bool} {cs rest : List Char} {p q : Position}
    (h : skipGap inComment cs p = ⟨rest, q⟩) : p.line ≤ q.line := by
  obtain ⟨gap, -, hq⟩ := exists_gap inComment cs p
  rw [h] at hq
  obtain rfl : q = p.after gap := hq
  exact p.line_le_after gap

section Next

variable {cs rest raw left text : List Char} {c : Char} {p q : Position} {kind : TokenKind} {fault : LexicalFault}
  {place : FaultPlace} {content : LexemeContent} (hstart : skipGap false cs p = ⟨c :: rest, q⟩)

include hstart

theorem next_of_token (hscan : Lexeme.scan c rest = ⟨.token kind text, raw, left⟩) (source : Source) :
    (Cursor.mk cs p).next source =
      (.token ⟨kind, String.ofList text, source.locate q raw.length⟩, ⟨left, q.after raw⟩) := by
  simp only [next, hstart, hscan]

theorem next_of_malformed (hscan : Lexeme.scan c rest = ⟨.malformed fault place, raw, left⟩) (source : Source) :
    (Cursor.mk cs p).next source =
      (.ending (.malformed fault (source.locate (if place = .start then q else q.after raw) 1)),
        ⟨left, q.after raw⟩) := by
  simp only [next, hstart, hscan]

theorem length_lt_of_token (hscan : Lexeme.scan c rest = ⟨.token kind text, raw, left⟩) : left.length < cs.length := by
  have hcovers := Lexeme.scan_covers c rest
  have hshorter := skipGap_rest_length_le false cs p
  rw [hscan] at hcovers
  rw [hstart] at hshorter
  exact Nat.lt_of_lt_of_le (hcovers.rest_length_lt rfl) hshorter

theorem after_left (hscan : Lexeme.scan c rest = ⟨content, raw, left⟩) : (q.after raw).after left = p.after cs := by
  obtain ⟨gap, hcs, hq⟩ := exists_gap false cs p
  have hcovers := (Lexeme.scan_covers c rest).append
  rw [hscan] at hcovers
  rw [hstart] at hcs hq
  obtain rfl : q = p.after gap := hq
  rw [hcs, ← hcovers, Position.after_append, Position.after_append]

theorem line_le_of_start : q.line ≤ (p.after cs).line := by
  rw [← after_left hstart rfl]
  exact Nat.le_trans (q.line_le_after _) (Position.line_le_after _ _)

end Next

/-- Scanning goes from token to token. Behind the gap there is the end of the text, something malformed, or a token with
more text behind it. -/
@[elab_as_elim]
theorem scan_induction {motive : List Char → Position → Prop}
    (gap : ∀ {cs p q}, skipGap false cs p = ⟨[], q⟩ → motive cs p)
    (malformed : ∀ {cs p c rest q fault place raw left}, skipGap false cs p = ⟨c :: rest, q⟩ →
      Lexeme.scan c rest = ⟨.malformed fault place, raw, left⟩ → motive cs p)
    (token : ∀ {cs p c rest q kind text raw left}, skipGap false cs p = ⟨c :: rest, q⟩ →
      Lexeme.scan c rest = ⟨.token kind text, raw, left⟩ → motive left (q.after raw) → motive cs p)
    (cs : List Char) (p : Position) : motive cs p := by
  rcases hstart : skipGap false cs p with ⟨rest, q⟩
  cases rest with
  | nil => exact gap hstart
  | cons c rest =>
    rcases hlexeme : Lexeme.scan c rest with ⟨content, raw, left⟩
    cases content with
    | malformed fault place => exact malformed hstart hlexeme
    | token kind text =>
      have hleft := length_lt_of_token hstart hlexeme
      exact token hstart hlexeme (scan_induction gap malformed token left (q.after raw))
termination_by cs.length

/-- The tokens in front of a line feed are those of the text before it. -/
theorem tokens_append {cs : List Char} {p : Position} {l : Location} (ds : List Char)
    (hlines : source.AgreesTo whole (p.after cs).line) (h : ((Cursor.mk cs p).tokens source).2 = .complete l) :
    (Cursor.mk (cs ++ '\n' :: ds) p).tokens whole =
      (((Cursor.mk cs p).tokens source).1 ++ ((Cursor.mk ds ((p.after cs).step '\n')).tokens whole).1,
        ((Cursor.mk ds ((p.after cs).step '\n')).tokens whole).2) := by
  induction cs, p using scan_induction with
  | @gap cs p q hstart =>
    have happend := skipGap_append false cs ds p
    obtain ⟨gap, hcs, hq⟩ := exists_gap false cs p
    rw [hstart] at happend hcs hq
    obtain rfl : cs = gap := by rw [hcs, List.append_nil]
    obtain rfl : q = p.after cs := hq
    rw [tokens_of_gap hstart, tokens_of_skipGap happend]
    rfl
  | malformed hstart hlexeme =>
    rw [tokens_of_ending (next_of_malformed hstart hlexeme source)] at h
    cases h
  | @token cs p c rest q kind text raw left hstart hlexeme ih =>
    have happend := skipGap_append false cs ds p
    have hscan := Lexeme.scan_append rest ds c
    rw [hstart] at happend
    rw [hlexeme] at hscan
    have hnext := next_of_token hstart hlexeme source
    have hnext' := next_of_token happend hscan whole
    rw [hlines.locate (line_le_of_start hstart)] at hnext'
    rw [← after_left hstart hlexeme] at hlines ⊢
    rw [tokens_of_token hnext] at h
    rw [tokens_of_token hnext, tokens_of_token hnext', ih hlines h, List.cons_append]

section Moved

variable {source' : Source} {move : Position → Position} {f : Location → Location}
  (hstep : ∀ p c, move (p.step c) = (move p).step c)

include hstep

theorem move_after (cs : List Char) (p : Position) : move (p.after cs) = (move p).after cs := by
  induction cs generalizing p with
  | nil => rfl
  | cons c cs ih =>
    change move ((p.step c).after cs) = ((move p).step c).after cs
    rw [ih, hstep]

theorem skipGap_move (inComment : Bool) (cs : List Char) (p : Position) :
    skipGap inComment cs (move p) =
      ⟨(skipGap inComment cs p).rest, move (skipGap inComment cs p).position⟩ := by
  induction cs generalizing inComment p with
  | nil => rfl
  | cons c cs ih =>
    rw [skipGap, skipGap, ← hstep]
    split
    · exact ih _ _
    split
    · exact ih _ _
    split
    · exact ih _ _
    · rfl

/-- If positions in the text are moved and locations with them, then so are the tokens. -/
theorem tokens_move (hlocate : ∀ p n, 1 ≤ p.line → source'.locate (move p) n = f (source.locate p n)) (cs : List Char)
    (p : Position) (hp : 1 ≤ p.line) :
    (Cursor.mk cs (move p)).tokens source' =
      (((Cursor.mk cs p).tokens source).1.map (Token.relocate f), ((Cursor.mk cs p).tokens source).2.relocate f) := by
  induction cs, p using scan_induction with
  | @gap cs p q hstart =>
    have hmoved := skipGap_move hstep false cs p
    rw [hstart] at hmoved
    rw [tokens_of_gap hstart, tokens_of_gap hmoved, hlocate q 0 (Nat.le_trans hp (line_le_of_skipGap hstart))]
    rfl
  | @malformed cs p c rest q fault place raw left hstart hlexeme =>
    have hmoved := skipGap_move hstep false cs p
    have hline := Nat.le_trans hp (line_le_of_skipGap hstart)
    rw [hstart] at hmoved
    have hnext' := next_of_malformed hmoved hlexeme source'
    have hplace : source'.locate (if place = .start then move q else (move q).after raw) 1 =
        f (source.locate (if place = .start then q else q.after raw) 1) := by
      rw [← move_after hstep]
      split
      · exact hlocate q 1 hline
      · exact hlocate _ 1 (Nat.le_trans hline (q.line_le_after raw))
    rw [hplace] at hnext'
    rw [tokens_of_ending (next_of_malformed hstart hlexeme source), tokens_of_ending hnext']
    rfl
  | @token cs p c rest q kind text raw left hstart hlexeme ih =>
    have hmoved := skipGap_move hstep false cs p
    have hline := Nat.le_trans hp (line_le_of_skipGap hstart)
    rw [hstart] at hmoved
    have hnext' := next_of_token hmoved hlexeme source'
    rw [hlocate q _ hline, ← move_after hstep] at hnext'
    rw [tokens_of_token (next_of_token hstart hlexeme source), tokens_of_token hnext',
      ih (Nat.le_trans hline (q.line_le_after raw))]
    rfl

end Moved

end Cursor

/-! ## Whole texts -/

def Location.inFile (file : String) (l : Location) : Location :=
  { l with file := file }

def relocateStream (f : Location → Location) (stream : List Token × Ending) : List Token × Ending :=
  (stream.1.map (Token.relocate f), stream.2.relocate f)

/-- A text in another file has the same tokens there. -/
theorem tokenize_inFile_eq (file file' text : String) :
    tokenize file' text = relocateStream (Location.inFile file') (tokenize file text) :=
  have hstep : ∀ (p : Position) c, id (p.step c) = (id p).step c := fun _ _ => rfl
  Cursor.tokens_move hstep (fun _ _ _ => rfl) text.toList {} (Nat.le_refl 1)

/-- Of a text without fault and another one on the lines below it, the tokens are those of the first and then those of
the second, so many lines further down. -/
theorem tokenize_append {file a : String} {l : Location} (h : (tokenize file a).2 = .complete l) (b : String) :
    tokenize file (a ++ "\n" ++ b) =
      let below := relocateStream (Location.down ((a ++ "\n").toList.count '\n')) (tokenize file b)
      ((tokenize file a).1 ++ below.1, below.2) := by
  have hlines : (Source.ofText file a).AgreesTo (Source.ofText file (a ++ "\n" ++ b))
      (Position.after {} a.toList).line := by
    rw [Position.after_line, Nat.add_comm]
    exact Source.agreesTo_append file a b
  have hbelow : (Position.after {} a.toList).step '\n' = Position.down ((a ++ "\n").toList.count '\n') {} := by
    rw [Position.step_newline]
    simp [Position.down, Nat.add_assoc]
  have hmoved := Cursor.tokens_move (Position.step_down ((a ++ "\n").toList.count '\n')) (Source.locate_down file a b)
    b.toList {} (Nat.le_refl 1)
  rw [tokenize, Cursor.ofText, Source.toList_append_line, Cursor.tokens_append b.toList hlines h, hbelow, hmoved]
  rfl

end AvmAssembler
