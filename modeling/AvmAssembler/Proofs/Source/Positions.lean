import Mathlib.Data.List.Basic
import Mathlib.Data.List.Induction
import Mathlib.Data.List.TakeWhile
import AvmAssembler.Proofs.Source.Concatenation

/-! # Positions and spans

A scan goes through a text from its front to its end and knows at every step how many lines and characters are behind
it, also when it goes on after malformed input. Each token stands for a slice of one line, which is found again in the
text of the line that is shown with the token; between the slices there are only blanks and comments.
-/

namespace AvmAssembler

/-! ## Positions -/

namespace Text

def lastLine (cs : List Char) : List Char :=
  (cs.reverse.takeWhile (· ≠ '\n')).reverse

theorem newline_not_mem_lastLine (cs : List Char) : '\n' ∉ lastLine cs := by
  intro h
  simpa using List.mem_takeWhile_imp (List.mem_reverse.1 h)

theorem lastLine_append_line (before : List Char) {line : List Char} (h : '\n' ∉ line) :
    lastLine (before ++ '\n' :: line) = line := by
  have hline : line.reverse.takeWhile (· ≠ '\n') = line.reverse :=
    List.takeWhile_eq_self_iff.2 fun c hc => decide_eq_true fun hnewline => h (hnewline ▸ List.mem_reverse.1 hc)
  rw [lastLine, List.reverse_append, List.reverse_cons, List.append_assoc, List.singleton_append,
    Lexeme.takeWhile_append_stop (by simp), hline, List.reverse_reverse]

/-- A text is its last line, or it has a line feed in front of that. -/
theorem eq_lastLine_or (cs : List Char) : cs = lastLine cs ∨ ∃ before, cs = before ++ '\n' :: lastLine cs := by
  have hsplit : cs = (cs.reverse.dropWhile (· ≠ '\n')).reverse ++ lastLine cs := by
    rw [lastLine, ← List.reverse_append, List.takeWhile_append_dropWhile, List.reverse_reverse]
  cases hfront : cs.reverse.dropWhile (· ≠ '\n') with
  | nil =>
    rw [hfront] at hsplit
    exact .inl hsplit
  | cons c front =>
    have hc : c = '\n' := by
      have hhead := List.head?_dropWhile_not (· ≠ '\n') cs.reverse
      rw [hfront] at hhead
      simpa using hhead
    rw [hfront, hc, List.reverse_cons, List.append_assoc, List.singleton_append] at hsplit
    exact .inr ⟨front.reverse, hsplit⟩

end Text

/-- The position behind characters at the front of a text: one more than the line feeds among them, and one more than
the characters behind the last of these. -/
def Position.behind (done : List Char) : Position :=
  ⟨done.count '\n' + 1, (Text.lastLine done).length + 1⟩

theorem Position.after_start (done : List Char) : Position.after {} done = behind done := by
  induction done using List.reverseRecOn with
  | nil => rfl
  | append_singleton done c ih =>
    have hstep : (behind done).step c = behind (done ++ [c]) := by
      by_cases hc : c = '\n' <;> simp [step, behind, Text.lastLine, hc]
    rw [after_append, ih]
    exact hstep

theorem Position.behind_append (done more : List Char) : behind (done ++ more) = (behind done).after more := by
  rw [← after_start, ← after_start, after_append]

/-! ## Lines -/

namespace Text

theorem splitLines_of_not_mem {cs : List Char} (h : '\n' ∉ cs) : splitLines cs = [cs] := by
  induction cs with
  | nil => rfl
  | cons c cs ih =>
    obtain ⟨hc, hcs⟩ : '\n' ≠ c ∧ '\n' ∉ cs := by simpa using h
    simp [splitLines, ih hcs, hc.symm]

/-- Characters without a line feed in front of a text belong to its first line. -/
theorem splitLines_front {front : List Char} (h : '\n' ∉ front) (cs : List Char) :
    ∃ line lines, splitLines (front ++ cs) = (front ++ line) :: lines := by
  induction front with
  | nil =>
    cases hlines : splitLines cs with
    | nil => simpa [hlines] using splitLines_length cs
    | cons line lines => exact ⟨line, lines, hlines⟩
  | cons c front ih =>
    obtain ⟨hc, hfront⟩ : '\n' ≠ c ∧ '\n' ∉ front := by simpa using h
    obtain ⟨line, lines, hlines⟩ := ih hfront
    exact ⟨line, lines, by simp [splitLines, hlines, hc.symm]⟩

/-- A slice without a line feed lies in one line, behind the last line of what is in front of it. -/
theorem splitLines_slice (done : List Char) {slice : List Char} (h : '\n' ∉ slice) (rest : List Char) :
    ∃ more, (splitLines (done ++ (slice ++ rest)))[done.count '\n']? = some (lastLine done ++ slice ++ more) := by
  have hfront : '\n' ∉ lastLine done ++ slice := by simp [newline_not_mem_lastLine, h]
  obtain ⟨more, lines, hlines⟩ := splitLines_front hfront rest
  refine ⟨more, ?_⟩
  rcases eq_lastLine_or done with hdone | ⟨before, hdone⟩
  · have hcount : done.count '\n' = 0 := List.count_eq_zero.2 (hdone ▸ newline_not_mem_lastLine done)
    have htext : done ++ (slice ++ rest) = lastLine done ++ slice ++ rest := by rw [← hdone, List.append_assoc]
    rw [hcount, htext, hlines, List.getElem?_cons_zero]
  · have hcount : done.count '\n' = (splitLines before).length := by
      rw [splitLines_length, hdone, List.count_append, List.count_cons_self,
        List.count_eq_zero.2 (newline_not_mem_lastLine done)]
    have htext : done ++ (slice ++ rest) = before ++ '\n' :: (lastLine done ++ slice ++ rest) := by
      rw [← List.singleton_append, ← List.append_assoc, ← List.append_assoc, ← List.append_assoc]
      simpa using congrArg (· ++ (slice ++ rest)) hdone
    rw [hcount, htext, splitLines_append, hlines, List.getElem?_append_right (Nat.le_refl _), Nat.sub_self,
      List.getElem?_cons_zero]

theorem trimReturns_of_getLast? {cs : List Char} (h : cs.getLast? ≠ some '\r') : trimReturns cs = cs := by
  have hkept : cs.reverse.dropWhile (· = '\r') = cs.reverse := by
    rw [List.dropWhile_eq_self_iff]
    intro hpos hreturn
    refine h ?_
    rw [← List.head?_reverse, List.head?_eq_getElem?, List.getElem?_eq_getElem hpos]
    simpa using hreturn
  rw [trimReturns, hkept, List.reverse_reverse]

theorem trimReturns_of_not_mem {cs : List Char} (h : '\r' ∉ cs) : trimReturns cs = cs :=
  trimReturns_of_getLast? fun hlast => h (List.mem_of_getLast? hlast)

/-- Characters that do not end with a carriage return stay in front of what is left of a line. -/
theorem trimReturns_append {front : List Char} (h : front.getLast? ≠ some '\r') (more : List Char) :
    ∃ left, trimReturns (front ++ more) = front ++ left := by
  have hkept := trimReturns_of_getLast? h
  rw [trimReturns] at hkept
  rw [trimReturns, List.reverse_append, List.dropWhile_append]
  split
  · exact ⟨[], by rw [hkept, List.append_nil]⟩
  · exact ⟨(more.reverse.dropWhile (· = '\r')).reverse, by rw [List.reverse_append, List.reverse_reverse]⟩

end Text

/-- A slice of a line is found in the text that is shown of the line, right behind as many characters as are in front of
it. -/
theorem Source.line_slice {file text : String} {done slice rest : List Char} (htext : text.toList = done ++ (slice ++ rest))
    (hnewline : '\n' ∉ slice) (hne : slice ≠ []) (hreturn : slice.getLast? ≠ some '\r') :
    (((ofText file text).line (Position.behind done).line).toList.drop (Text.lastLine done).length).take slice.length =
      slice := by
  obtain ⟨more, hline⟩ := Text.splitLines_slice done hnewline rest
  have hlast : (Text.lastLine done ++ slice).getLast? ≠ some '\r' := by
    rwa [List.getLast?_append_of_ne_nil _ hne]
  obtain ⟨left, hleft⟩ := Text.trimReturns_append hlast more
  have hshown : (ofText file text).line (Position.behind done).line =
      String.ofList (Text.lastLine done ++ slice ++ left) := by
    rw [← hleft]
    simp [line, ofText, Position.behind, htext, hline]
  rw [hshown, String.toList_ofList, List.append_assoc, List.drop_left, List.take_left]

/-! ## Lexemes lie in a line -/

namespace Lexeme

variable {c : Char} {cs seen text : List Char} {kind : TokenKind}

/-- A lexeme ends in front of a line feed, as it does at the end of the text. -/
theorem newline_not_mem_scan (hc : c ≠ '\n') (cs : List Char) : '\n' ∉ (scan c cs).raw := by
  have hplain : ∀ {cs : List Char}, '\n' ∉ cs → '\n' ∉ (scan c cs).raw := by
    intro cs hcs hmem
    have hinput : '\n' ∈ c :: cs := (scan_covers c cs).append ▸ List.mem_append_left _ hmem
    rcases List.mem_cons.1 hinput with rfl | hinput
    · exact hc rfl
    · exact hcs hinput
  by_cases hmem : '\n' ∈ cs
  · obtain ⟨line, rest, rfl, hline⟩ := List.eq_append_cons_of_mem hmem
    rw [scan_append]
    exact hplain hline
  · exact hplain hmem

theorem return_not_mem_takeWhile {p : Char → Bool} (hp : p '\r' = false) (cs : List Char) : '\r' ∉ cs.takeWhile p :=
  fun h => by simpa [hp] using List.mem_takeWhile_imp h

theorem isDigit_return : Text.Digit.isDigit '\r' = false := by decide

theorem accepts_return (radix : Radix) : radix.accepts '\r' = false := by
  cases radix <;> decide

theorem return_not_mem_word (cs : List Char) : '\r' ∉ (word cs).raw :=
  return_not_mem_takeWhile rfl cs

theorem return_not_mem_dotted (cs : List Char) : '\r' ∉ (dotted cs).raw := by
  have hword := return_not_mem_takeWhile (p := isWordChar) rfl cs
  unfold dotted
  repeat' split
  all_goals simp_all [fault]

theorem return_not_mem_radixDigits (radix : Radix) (hseen : '\r' ∉ seen) (cs : List Char) :
    '\r' ∉ (radixDigits radix seen cs).raw := by
  have hdigits := return_not_mem_takeWhile (accepts_return radix) cs
  simp only [radixDigits]
  repeat' split
  all_goals simp [fault, hseen, hdigits]

theorem return_not_mem_fraction (hseen : '\r' ∉ seen) (cs : List Char) : '\r' ∉ (fraction seen cs).raw := by
  have hdigits := return_not_mem_takeWhile (p := Char.isDigit) rfl cs
  simp only [fraction]
  repeat' split
  all_goals simp [fault, hseen, hdigits]

theorem return_not_mem_decimalDigits (hseen : '\r' ∉ seen) (cs : List Char) :
    '\r' ∉ (decimalDigits seen cs).raw := by
  have hdigits := return_not_mem_takeWhile isDigit_return cs
  simp only [decimalDigits]
  repeat' split
  · exact return_not_mem_fraction (by simp [hseen, hdigits]) _
  all_goals simp [fault, hseen, hdigits]

theorem return_not_mem_unsigned (hseen : '\r' ∉ seen) (cs : List Char) : '\r' ∉ (unsigned seen cs).raw := by
  unfold unsigned
  repeat' split
  · rename_i letter rest _ radix hletter
    have hne : letter ≠ '\r' := by
      rintro rfl
      cases hletter
    exact return_not_mem_radixDigits radix (by simp [hseen, hne.symm]) rest
  all_goals exact return_not_mem_decimalDigits hseen _

theorem return_not_mem_number (cs : List Char) : '\r' ∉ (number cs).raw := by
  unfold number
  split
  · exact return_not_mem_unsigned (by simp) _
  · exact return_not_mem_unsigned (by simp) _

theorem getLast?_push {d : Char} {written : List Char} {b : StringBody}
    (h : ∀ text, b.text = .ok text → b.raw.getLast? = some '"') (hpush : (b.push d written).text = .ok text) :
    (b.push d written).raw.getLast? = some '"' := by
  cases htext : b.text with
  | error fault => simp [StringBody.push, htext, Except.map] at hpush
  | ok inner => simp [StringBody.push, h inner htext]

/-- A string literal ends with its closing quote. -/
theorem getLast?_stringBody (h : (stringBody cs).text = .ok text) : (stringBody cs).raw.getLast? = some '"' := by
  fun_induction stringBody cs generalizing text with
  | case1 | case3 | case4 | case5 | case7 => cases h
  | case2 => rfl
  | case6 c after hc d hd ih => exact getLast?_push (fun _ => ih) h
  | case8 c after hquote hnewline hend hbreak hescape ih => exact getLast?_push (fun _ => ih) h

theorem getLast?_string (h : (string cs).content = .token kind text) : (string cs).raw.getLast? = some '"' := by
  simp only [string] at h ⊢
  split at h
  · rename_i inner hinner
    rw [List.getLast?_cons, getLast?_stringBody hinner]
    rfl
  · cases h

theorem getLast?_closeCharacter {value : Char} {raw : List Char}
    (h : (closeCharacter value raw cs).content = .token kind text) :
    (closeCharacter value raw cs).raw.getLast? = some '\'' := by
  unfold closeCharacter at h ⊢
  split at h
  · simp
  all_goals cases h

theorem getLast?_character (h : (character cs).content = .token kind text) :
    (character cs).raw.getLast? = some '\'' := by
  fun_cases character cs with
  | case6 c after hbreak d hd =>
    simp only [character, hd] at h
    exact getLast?_closeCharacter h
  | case8 c after hnewline hquote hend hbreak hescape hbyte =>
    rw [character_plain hnewline hquote (ne_backslash_of_cases hend hescape), if_pos hbyte] at h
    exact getLast?_closeCharacter h
  | case1 | case2 | case3 | case4 | case5 => cases h
  | case7 c after hbreak hnone => simp [character, hnone, fault] at h
  | case9 c after hnewline hquote hend hbreak hescape hbyte =>
    rw [character_plain hnewline hquote (ne_backslash_of_cases hend hescape), if_neg hbyte] at h
    cases h

theorem angle_raw {operator : Operator} (h : (angle c operator cs).content = .token kind text) :
    (angle c operator cs).raw = [c, c] := by
  unfold angle at h ⊢
  split at h
  · split at h
    · simp_all
    · cases h
  · cases h

theorem getLast?_scan (h : (scan c cs).content = .token kind text) : (scan c cs).raw.getLast? ≠ some '\r' := by
  have hlast : ∀ {raw : List Char}, '\r' ∉ raw → raw.getLast? ≠ some '\r' :=
    fun hraw hreturn => hraw (List.mem_of_getLast? hreturn)
  generalize hlexeme : scan c cs = lexeme at h ⊢
  unfold scan at hlexeme
  split at hlexeme
  · exact hlast (hlexeme ▸ return_not_mem_word _)
  split at hlexeme
  · exact hlast (hlexeme ▸ return_not_mem_number _)
  split at hlexeme
  · exact hlast (hlexeme ▸ return_not_mem_dotted _)
  split at hlexeme
  · subst hlexeme
    rw [getLast?_string h]
    decide
  split at hlexeme
  · subst hlexeme
    rw [getLast?_character h]
    decide
  split at hlexeme
  · subst hlexeme
    rw [angle_raw h]
    simp_all
  split at hlexeme
  · subst hlexeme
    rw [angle_raw h]
    simp_all
  split at hlexeme
  · rename_i hsingle
    subst hlexeme
    rintro ⟨⟩
    cases hsingle
  · subst hlexeme
    cases h

end Lexeme

/-! ## Gaps -/

/-- The characters are blanks and comments in front of what is behind them; a comment runs from `#` to the end of its
line. -/
inductive Gap (behind : List Char) : List Char → Prop
  | nil : Gap behind []
  | blank {c gap} : Lexeme.isBlank c = true → Gap behind gap → Gap behind (c :: gap)
  | comment {body gap} : '\n' ∉ body → (∀ c ∈ (gap ++ behind).head?, c = '\n') → Gap behind gap →
      Gap behind ('#' :: (body ++ gap))

namespace Cursor

/-- Skipping leads from characters at a position over a gap to a cursor. -/
structure Skips (cs : List Char) (p : Position) (start : Cursor) (gap : List Char) : Prop where
  split : cs = gap ++ start.rest
  position : start.position = p.after gap
  isGap : Gap start.rest gap

theorem Skips.blank {c : Char} {cs gap : List Char} {p : Position} {start : Cursor} (hc : Lexeme.isBlank c = true)
    (h : Skips cs (p.step c) start gap) : Skips (c :: cs) p start (c :: gap) :=
  ⟨congrArg (c :: ·) h.split, h.position, .blank hc h.isGap⟩

theorem Skips.comment {cs body gap : List Char} {p : Position} {start : Cursor} (hbody : '\n' ∉ body)
    (hcs : ∀ c ∈ cs.head?, c = '\n') (h : Skips cs ((p.step '#').after body) start gap) :
    Skips ('#' :: (body ++ cs)) p start ('#' :: (body ++ gap)) where
  split := by rw [List.cons_append, List.append_assoc, ← h.split]
  position := by
    rw [h.position, ← Position.after_append]
    rfl
  isGap := .comment hbody (h.split ▸ hcs) h.isGap

theorem skipGap_skips (cs : List Char) (p : Position) : ∃ gap, Skips cs p (skipGap false cs p) gap := by
  cases cs with
  | nil => exact ⟨[], rfl, rfl, .nil⟩
  | cons c cs =>
    by_cases hblank : Lexeme.isBlank c = true
    · obtain ⟨gap, hgap⟩ := skipGap_skips cs (p.step c)
      rw [skipGap_blank hblank]
      exact ⟨c :: gap, hgap.blank hblank⟩
    by_cases hhash : c = '#'
    · subst hhash
      rw [skipGap_hash]
      by_cases hmem : '\n' ∈ cs
      · obtain ⟨body, more, rfl, hbody⟩ := List.eq_append_cons_of_mem hmem
        obtain ⟨gap, hgap⟩ := skipGap_skips more (((p.step '#').after body).step '\n')
        rw [skipGap_inComment hbody, skipGap_newline]
        exact ⟨'#' :: (body ++ '\n' :: gap), (hgap.blank rfl).comment hbody (by simp)⟩
      · have hskip := skipGap_inComment hmem [] (p.step '#')
        rw [List.append_nil] at hskip
        have hend : Skips [] ((p.step '#').after cs) (skipGap true cs (p.step '#')) [] := by
          rw [hskip]
          exact ⟨rfl, rfl, .nil⟩
        exact ⟨'#' :: (cs ++ []), by simpa using hend.comment hmem (by simp)⟩
    · exact ⟨[], by simp [skipGap, hblank, hhash], by simp [skipGap, hblank, hhash, Position.after], .nil⟩
termination_by cs.length
decreasing_by all_goals simp_all <;> omega

variable {source : Source} {cursor stop : Cursor} {t : Token}

/-- A token covers a slice behind a gap, and the slice by itself is a lexeme of it. -/
theorem next_token (h : cursor.next source = (.token t, stop)) :
    ∃ gap slice, cursor.rest = gap ++ (slice ++ stop.rest) ∧ Gap (slice ++ stop.rest) gap ∧
      stop.position = cursor.position.after (gap ++ slice) ∧
      t.location = source.locate (cursor.position.after gap) slice.length ∧
      slice ≠ [] ∧ '\n' ∉ slice ∧ slice.getLast? ≠ some '\r' ∧ t.terminal.SpelledBy slice := by
  obtain ⟨gap, hgap⟩ := skipGap_skips cursor.rest cursor.position
  rcases hstart : skipGap false cursor.rest cursor.position with ⟨rest, q⟩
  rw [hstart] at hgap
  obtain rfl : q = cursor.position.after gap := hgap.position
  cases rest with
  | nil => simp [next, hstart] at h
  | cons c cs =>
    have hcovers := Lexeme.scan_covers c cs
    rcases hlexeme : Lexeme.scan c cs with ⟨content, raw, left⟩
    rw [hlexeme] at hcovers
    cases content with
    | malformed fault place => simp [next_of_malformed hstart hlexeme] at h
    | token kind text =>
      obtain ⟨ht, hstop⟩ := Prod.mk.inj ((next_of_token hstart hlexeme source).symm.trans h)
      obtain rfl := Scanned.token.inj ht
      subst hstop
      have hline := Lexeme.newline_not_mem_scan (Lexeme.ne_newline_of_scan hlexeme) cs
      have hlast := Lexeme.getLast?_scan (congrArg Lexeme.content hlexeme)
      rw [hlexeme] at hline hlast
      have hrest : raw ++ left = c :: cs := hcovers.append
      refine ⟨gap, raw, hrest ▸ hgap.split, hrest ▸ hgap.isGap, ?_, rfl, hcovers.ne_nil kind text rfl, hline, hlast,
        ?_⟩
      · rw [Position.after_append]
      · exact Terminal.spelledBy_of_scan hlexeme

/-- Whatever a step amounts to, it leads over the next characters of the text. -/
theorem next_split (source : Source) (cursor : Cursor) :
    ∃ more, cursor.rest = more ++ (cursor.next source).2.rest ∧
      (cursor.next source).2.position = cursor.position.after more := by
  obtain ⟨gap, hgap⟩ := skipGap_skips cursor.rest cursor.position
  rcases hstart : skipGap false cursor.rest cursor.position with ⟨rest, q⟩
  rw [hstart] at hgap
  obtain rfl : q = cursor.position.after gap := hgap.position
  cases rest with
  | nil => exact ⟨gap, by simpa [next, hstart] using hgap.split, by simp [next, hstart]⟩
  | cons c cs =>
    have hcovers := (Lexeme.scan_covers c cs).append
    have hrest : cursor.rest = gap ++ (c :: cs) := hgap.split
    refine ⟨gap ++ (Lexeme.scan c cs).raw, ?_, ?_⟩
    · rw [hrest, ← hcovers]
      simp only [next, hstart]
      split <;> simp
    · rw [Position.after_append]
      simp only [next, hstart]
      split <;> rfl

/-- A scan is complete when there is nothing but a gap ahead, and otherwise something malformed is behind the gap. -/
theorem next_ending {ending : Ending} (h : cursor.next source = (.ending ending, stop)) :
    ∃ gap ahead, cursor.rest = gap ++ ahead ∧ Gap ahead gap ∧ (ahead = [] ↔ ∃ l, ending = .complete l) := by
  obtain ⟨gap, hgap⟩ := skipGap_skips cursor.rest cursor.position
  rcases hstart : skipGap false cursor.rest cursor.position with ⟨rest, q⟩
  rw [hstart] at hgap
  refine ⟨gap, rest, hgap.split, hgap.isGap, ?_⟩
  cases rest with
  | nil =>
    simp only [next, hstart] at h
    cases h
    simp
  | cons c cs =>
    rcases hlexeme : Lexeme.scan c cs with ⟨content, raw, left⟩
    cases content with
    | malformed fault place =>
      rw [next_of_malformed hstart hlexeme] at h
      cases h
      simp
    | token kind text => simp [next_of_token hstart hlexeme] at h

/-! ## Steps -/

/-- The cursor after a number of steps, which go on after an ending from where the cursor stands. -/
def stepped (source : Source) (cursor : Cursor) : Nat → Cursor
  | 0 => cursor
  | n + 1 => stepped source (cursor.next source).2 n

theorem stepped_add (source : Source) (cursor : Cursor) (n k : Nat) :
    cursor.stepped source (n + k) = (cursor.stepped source n).stepped source k := by
  induction n generalizing cursor with
  | zero => rw [Nat.zero_add, stepped]
  | succ n ih => rw [Nat.add_right_comm, stepped, ih, stepped]

/-- The cursor stands in a text behind some characters, at the position behind these. -/
structure Stands (text done : List Char) (cursor : Cursor) : Prop where
  text_eq : text = done ++ cursor.rest
  position : cursor.position = .behind done

variable {text done : List Char}

theorem stands_ofText (text : String) : Stands text.toList [] (ofText text) :=
  ⟨rfl, rfl⟩

theorem Stands.over {more : List Char} (h : Stands text done cursor) (hrest : cursor.rest = more ++ stop.rest)
    (hposition : stop.position = cursor.position.after more) : Stands text (done ++ more) stop := by
  refine ⟨?_, ?_⟩
  · rw [h.text_eq, hrest, List.append_assoc]
  · rw [hposition, h.position, Position.behind_append]

theorem Stands.stepped (h : Stands text done cursor) (source : Source) (n : Nat) :
    ∃ more, Stands text (done ++ more) (cursor.stepped source n) := by
  induction n generalizing cursor done with
  | zero => exact ⟨[], by rwa [List.append_nil]⟩
  | succ n ih =>
    obtain ⟨more, hrest, hposition⟩ := next_split source cursor
    obtain ⟨more', hmore'⟩ := ih (h.over hrest hposition)
    exact ⟨more ++ more', by rwa [← List.append_assoc]⟩

/-- The outcomes of steps up to the first ending are the tokens and that ending. -/
theorem steps_tokens (source : Source) (cursor : Cursor) :
    cursor.steps source ((cursor.tokens source).1.length + 1) =
      (cursor.tokens source).1.map Scanned.token ++ [.ending (cursor.tokens source).2] := by
  fun_induction cursor.tokens source with
  | case1 cursor t stop h ts ending hrest ih =>
    rw [hrest] at ih
    have hsteps (n : Nat) : cursor.steps source (n + 1) = .token t :: stop.steps source n := by
      simp only [steps, h]
    simp only [List.length_cons, List.map_cons, List.cons_append, hsteps]
    exact congrArg _ ih
  | case2 cursor ending stop h =>
    simp [steps, h]

end Cursor

/-! ## Spans -/

/-- The token stands for a slice of a text behind some characters: it is located at their position, is as long as the
slice, and shows a line in which the slice is found at its column. -/
structure Token.Spans (t : Token) (done slice : List Char) : Prop where
  ne_nil : slice ≠ []
  newline_not_mem : '\n' ∉ slice
  line : t.location.line = (Position.behind done).line
  column : t.location.column = (Position.behind done).column
  length : t.location.length = slice.length
  shown : (t.location.sourceLine.toList.drop (t.location.column - 1).toNat).take t.location.length.toNat = slice

/-- The tokens stand for slices of the text ahead, in order and with gaps between them, up to the end of the text or to
something malformed in it. -/
inductive Tiled : (done ahead : List Char) → List Token → Ending → Prop
  | complete {done gap l} : Gap [] gap → Tiled done gap [] (.complete l)
  | malformed {done gap ahead fault l} : Gap ahead gap → ahead ≠ [] → Tiled done (gap ++ ahead) [] (.malformed fault l)
  | token {done gap slice rest t ts ending} : Gap (slice ++ rest) gap → t.Spans (done ++ gap) slice →
      Tiled (done ++ (gap ++ slice)) rest ts ending → Tiled done (gap ++ (slice ++ rest)) (t :: ts) ending

/-- There are no more tokens than characters, since no slice is empty. -/
theorem Tiled.length_le {done ahead : List Char} {ts : List Token} {ending : Ending} (h : Tiled done ahead ts ending) :
    ts.length ≤ ahead.length := by
  induction h with
  | complete | malformed => exact Nat.zero_le _
  | token hgap hspans hrest ih =>
    have hpos := List.length_pos_iff.2 hspans.ne_nil
    simp only [List.length_cons, List.length_append]
    omega

theorem Token.spans_of_locate {file text : String} {t : Token} {done slice rest : List Char}
    (htext : text.toList = done ++ (slice ++ rest)) (hne : slice ≠ []) (hnewline : '\n' ∉ slice)
    (hreturn : slice.getLast? ≠ some '\r')
    (ht : t.location = (Source.ofText file text).locate (.behind done) slice.length) : t.Spans done slice := by
  have hpos := List.length_pos_iff.2 hne
  have hlength : max (slice.length : Int) 1 = slice.length := by omega
  refine ⟨hne, hnewline, ?_, ?_, ?_, ?_⟩
  all_goals simp only [ht, Source.locate]
  · exact hlength
  · have hcolumn : (((Position.behind done).column : Int) - 1).toNat = (Text.lastLine done).length := by
      simp [Position.behind]
    rw [hcolumn, hlength, Int.toNat_natCast]
    exact Source.line_slice htext hnewline hne hreturn

/-- A token of a text stands for a slice behind a gap, and the cursor then stands behind that slice. -/
theorem Cursor.next_spans {file text : String} {done : List Char} {cursor stop : Cursor} {t : Token}
    (h : Stands text.toList done cursor) (hnext : cursor.next (.ofText file text) = (.token t, stop)) :
    ∃ gap slice, cursor.rest = gap ++ (slice ++ stop.rest) ∧ Gap (slice ++ stop.rest) gap ∧
      t.Spans (done ++ gap) slice ∧ t.terminal.SpelledBy slice ∧ Stands text.toList (done ++ (gap ++ slice)) stop := by
  obtain ⟨gap, slice, hahead, hgap, hposition, hlocation, hne, hnewline, hreturn, hspelled⟩ := next_token hnext
  have htext : text.toList = done ++ gap ++ (slice ++ stop.rest) := by rw [h.text_eq, hahead, List.append_assoc]
  rw [h.position, ← Position.behind_append] at hlocation
  exact ⟨gap, slice, hahead, hgap, Token.spans_of_locate htext hne hnewline hreturn hlocation, hspelled,
    h.over (hahead.trans (List.append_assoc ..).symm) hposition⟩

theorem Cursor.tokens_tiled {file text : String} {done : List Char} {cursor : Cursor}
    (h : Stands text.toList done cursor) :
    Tiled done cursor.rest (cursor.tokens (.ofText file text)).1 (cursor.tokens (.ofText file text)).2 := by
  fun_induction cursor.tokens (.ofText file text) generalizing done with
  | case1 cursor t stop hnext ts ending hrest ih =>
    obtain ⟨gap, slice, hahead, hgap, hspans, -, hstop⟩ := next_spans h hnext
    rw [hrest] at ih
    rw [hahead]
    exact .token hgap hspans (ih hstop)
  | case2 cursor ending stop hnext =>
    obtain ⟨gap, ahead, hahead, hgap, hcomplete⟩ := next_ending hnext
    rw [hahead]
    cases ending with
    | complete l =>
      obtain rfl := hcomplete.2 ⟨l, rfl⟩
      rw [List.append_nil]
      exact .complete hgap
    | malformed fault l => exact .malformed hgap fun hnil => by simpa using hcomplete.1 hnil

/-- After any number of steps, malformed input or not, the cursor stands at the position behind the characters that are
done, and further steps never lead back. The tokens stand for slices of lines, in order and with nothing but blanks and
comments between them, and each location tells the start, the length and the line of its slice. So the scan of a text
ends after at most one step more than there are characters. -/
theorem tokenize_tiled (file text : String) :
    (∀ n k, ∃ done more,
      Cursor.Stands text.toList done ((Cursor.ofText text).stepped (.ofText file text) n) ∧
      Cursor.Stands text.toList (done ++ more) ((Cursor.ofText text).stepped (.ofText file text) (n + k))) ∧
    (Cursor.ofText text).steps (.ofText file text) ((tokenize file text).1.length + 1) =
      (tokenize file text).1.map Scanned.token ++ [.ending (tokenize file text).2] ∧
    Tiled [] text.toList (tokenize file text).1 (tokenize file text).2 ∧
    (tokenize file text).1.length + 1 ≤ text.length + 1 := by
  have htiled : Tiled [] text.toList (tokenize file text).1 (tokenize file text).2 :=
    Cursor.tokens_tiled (Cursor.stands_ofText text)
  refine ⟨fun n k => ?_, Cursor.steps_tokens _ _, htiled, Nat.succ_le_succ ?_⟩
  · obtain ⟨done, hdone⟩ := (Cursor.stands_ofText text).stepped (.ofText file text) n
    obtain ⟨more, hmore⟩ := hdone.stepped (.ofText file text) k
    rw [← Cursor.stepped_add] at hmore
    exact ⟨_, more, hdone, hmore⟩
  · exact htiled.length_le

end AvmAssembler
