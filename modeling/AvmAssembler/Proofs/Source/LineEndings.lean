import AvmAssembler.Proofs.Source.Positions
import AvmAssembler.Proofs.Source.Soundness

/-! # Line endings

A text may be written with a carriage return in front of each line feed. Its lines are shown as before. The carriage
returns are blanks, or belong to comments, and end a lexeme where the line feed ended it; a line feed sets the column
back, so that they do not move what is below either.
-/

namespace AvmAssembler

/-! ## The lines -/

namespace Text

/-- The text with a carriage return in front of each line feed. -/
def withReturns (cs : List Char) : List Char :=
  cs.flatMap fun c => if c = '\n' then ['\r', '\n'] else [c]

@[simp] theorem withReturns_nil : withReturns [] = [] := rfl

@[simp] theorem withReturns_newline (cs : List Char) :
    withReturns ('\n' :: cs) = '\r' :: '\n' :: withReturns cs := rfl

theorem withReturns_cons {c : Char} (hc : c ≠ '\n') (cs : List Char) : withReturns (c :: cs) = c :: withReturns cs := by
  simp [withReturns, hc]

theorem withReturns_append (cs ds : List Char) : withReturns (cs ++ ds) = withReturns cs ++ withReturns ds :=
  List.flatMap_append

theorem withReturns_of_not_mem {cs : List Char} (h : '\n' ∉ cs) : withReturns cs = cs := by
  induction cs with
  | nil => rfl
  | cons c cs ih =>
    obtain ⟨hc, hcs⟩ : '\n' ≠ c ∧ '\n' ∉ cs := by simpa using h
    rw [withReturns_cons hc.symm, ih hcs]

theorem withReturns_line {line : List Char} (h : '\n' ∉ line) (cs : List Char) :
    withReturns (line ++ '\n' :: cs) = line ++ '\r' :: '\n' :: withReturns cs := by
  rw [withReturns_append, withReturns_of_not_mem h, withReturns_newline]

theorem trimReturns_return (line : List Char) : trimReturns (line ++ ['\r']) = trimReturns line := by
  simp [trimReturns]

theorem splitLines_withReturns (cs : List Char) :
    (splitLines (withReturns cs)).map trimReturns = (splitLines cs).map trimReturns := by
  by_cases hmem : '\n' ∈ cs
  · obtain ⟨line, ds, rfl, hline⟩ := List.eq_append_cons_of_mem hmem
    have hreturn : '\n' ∉ line ++ ['\r'] := by simp [hline]
    have hsplit : withReturns (line ++ '\n' :: ds) = (line ++ ['\r']) ++ '\n' :: withReturns ds := by
      rw [withReturns_line hline, List.append_assoc, List.singleton_append]
    rw [hsplit, splitLines_append, splitLines_append, List.map_append, List.map_append, splitLines_withReturns ds,
      splitLines_of_not_mem hreturn, splitLines_of_not_mem hline, List.map_singleton, List.map_singleton,
      trimReturns_return]
  · rw [withReturns_of_not_mem hmem]
termination_by cs.length
decreasing_by simp_all; omega

end Text

open Text (withReturns)

theorem Source.ofText_withReturns (file text : String) :
    ofText file (String.ofList (withReturns text.toList)) = ofText file text := by
  have hlines := congrArg (List.map String.ofList) (Text.splitLines_withReturns text.toList)
  simp only [List.map_map, Function.comp_def] at hlines
  rw [ofText, ofText, String.toList_ofList, hlines]

/-! ## Gaps -/

/-- A carriage return in front of a line feed takes a column that the line feed gives back. -/
theorem Position.step_return (p : Position) : (p.step '\r').step '\n' = p.step '\n' := rfl

theorem Cursor.skipGap_withReturns (inComment : Bool) (cs : List Char) (p : Position) :
    skipGap inComment (withReturns cs) p =
      ⟨withReturns (skipGap inComment cs p).rest, (skipGap inComment cs p).position⟩ := by
  induction cs generalizing inComment p with
  | nil => rfl
  | cons c cs ih =>
    by_cases hc : c = '\n'
    · subst hc
      have hreturn : skipGap inComment ('\r' :: '\n' :: withReturns cs) p =
          skipGap false (withReturns cs) (p.step '\n') := by
        rw [← Position.step_return p]
        cases inComment <;> rfl
      have hnewline : skipGap inComment ('\n' :: cs) p = skipGap false cs (p.step '\n') := by
        cases inComment <;> rfl
      rw [Text.withReturns_newline, hreturn, hnewline]
      exact ih false _
    · rw [Text.withReturns_cons hc, skipGap, skipGap]
      split
      · exact ih _ _
      split
      · exact ih _ _
      split
      · exact ih _ _
      · rw [Text.withReturns_cons hc]

/-! ## Lexemes -/

namespace Lexeme

variable {cs raw left text : List Char} {kind : TokenKind}

/-- A token ends at a blank as it does at the end of the text. The literals among the tokens are closed before it. -/
theorem scan_append_blank {c e : Char} (he : isBlank e = true) (h : scan c cs = ⟨.token kind text, raw, left⟩)
    (ds : List Char) : scan c (cs ++ e :: ds) = ⟨.token kind text, raw, left ++ e :: ds⟩ := by
  have hcovers := scan_covers c cs
  rw [h] at hcovers
  obtain ⟨d, w, rfl⟩ := List.exists_cons_of_ne_nil (hcovers.ne_nil kind text rfl)
  obtain ⟨rfl, rfl⟩ : d = c ∧ w ++ left = cs := List.cons.inj hcovers.append
  rw [scan_append_of _ ds he d ?_ ?_, h]
  · rfl
  · rintro rfl
    have hstring : string (w ++ left) = ⟨.token kind text, '"' :: w, left⟩ := h
    rw [hstring, List.append_assoc]
    exact string_append_rest hstring _
  · rintro rfl
    have hcharacter : character (w ++ left) = ⟨.token kind text, '\'' :: w, left⟩ := h
    rw [hcharacter, List.append_assoc]
    exact character_append_rest hcharacter _

theorem newline_not_mem_left {c : Char} (h : scan c cs = ⟨.token kind text, raw, left⟩) (hcs : '\n' ∉ cs) :
    '\n' ∉ left := by
  intro hmem
  have hcovers := (scan_covers c cs).append
  rw [h] at hcovers
  have hinput : '\n' ∈ c :: cs := hcovers ▸ List.mem_append_right raw hmem
  rcases List.mem_cons.1 hinput with hc | hinput
  · exact ne_newline_of_scan h hc.symm
  · exact hcs hinput

/-- A token is the same with carriage returns in front of the line feeds behind it. -/
theorem scan_withReturns {c : Char} (h : scan c cs = ⟨.token kind text, raw, left⟩) :
    scan c (withReturns cs) = ⟨.token kind text, raw, withReturns left⟩ := by
  by_cases hmem : '\n' ∈ cs
  -- The token lies in the line in front of the first line feed, and that line is the same in both texts.
  · obtain ⟨line, ds, rfl, hline⟩ := List.eq_append_cons_of_mem hmem
    rcases hlexeme : scan c line with ⟨content, raw', left'⟩
    rw [scan_append, hlexeme] at h
    obtain ⟨rfl, rfl, rfl⟩ : content = .token kind text ∧ raw' = raw ∧ left' ++ '\n' :: ds = left := by
      simpa [extend] using h
    rw [Text.withReturns_line hline, Text.withReturns_line (newline_not_mem_left hlexeme hline)]
    exact scan_append_blank rfl hlexeme _
  · rw [Text.withReturns_of_not_mem hmem, Text.withReturns_of_not_mem (newline_not_mem_left h hmem), h]

end Lexeme

/-! ## Tokens -/

/-- Where a text is scanned to its end, carriage returns in front of its line feeds do not change its tokens. -/
theorem Cursor.tokens_withReturns {source : Source} {cs : List Char} {p : Position}
    (h : ((Cursor.mk cs p).tokens source).2.IsComplete) :
    (Cursor.mk (withReturns cs) p).tokens source = (Cursor.mk cs p).tokens source := by
  induction cs, p using scan_induction with
  | @gap cs p q hstart =>
    have hreturns := skipGap_withReturns false cs p
    rw [hstart] at hreturns
    rw [tokens_of_gap hstart, tokens_of_gap hreturns]
  | malformed hstart hlexeme =>
    rw [tokens_of_ending (next_of_malformed hstart hlexeme source)] at h
    obtain ⟨l, hl⟩ := h
    cases hl
  | @token cs p c rest q kind text raw left hstart hlexeme ih =>
    have hreturns := skipGap_withReturns false cs p
    rw [hstart, Text.withReturns_cons (Lexeme.ne_newline_of_scan hlexeme)] at hreturns
    have hnext := next_of_token hstart hlexeme source
    have hnext' := next_of_token hreturns (Lexeme.scan_withReturns hlexeme) source
    rw [tokens_of_token hnext] at h
    rw [tokens_of_token hnext, tokens_of_token hnext', ih h]

/-- Line endings do not matter: a text without malformed input has the same tokens, at the same places in the same lines,
and the same end, if each of its line feeds has a carriage return in front of it. -/
theorem tokenize_withReturns (file text : String) (h : (tokenize file text).2.IsComplete) :
    tokenize file (String.ofList (withReturns text.toList)) = tokenize file text := by
  rw [tokenize, Source.ofText_withReturns, Cursor.ofText, String.toList_ofList]
  exact Cursor.tokens_withReturns h

/-- A carriage return behind a comment and one at the end of the text. -/
theorem tokenize_withReturns_comment :
    (tokenize "" ".a # one\n\"b\"\n").2.IsComplete ∧
      tokenize "" ".a # one\r\n\"b\"\r\n" = tokenize "" ".a # one\n\"b\"\n" := by
  have hcomplete : (tokenize "" ".a # one\n\"b\"\n").2.IsComplete :=
    ⟨(tokenize "" ".a # one\n\"b\"\n").2.location, by decide +kernel⟩
  have htext : String.ofList (withReturns ".a # one\n\"b\"\n".toList) = ".a # one\r\n\"b\"\r\n" := by decide
  have hsame := tokenize_withReturns "" ".a # one\n\"b\"\n" hcomplete
  rw [htext] at hsame
  exact ⟨hcomplete, hsame⟩

end AvmAssembler
