import AvmAssembler.Source.Lexeme

/-! # Lexemes cover the input

Whatever a lexeme amounts to, the characters it covers followed by the characters after it are the input, and a
token covers at least one character. Scanning therefore ends.
-/

namespace AvmAssembler.Lexeme

/-- The two parts of a lexeme make up an input, and a token covers some of it. -/
structure Covers (l : Lexeme) (input : List Char) : Prop where
  append : l.raw ++ l.rest = input
  ne_nil : ∀ kind text, l.content = .token kind text → l.raw ≠ []

theorem Covers.rest_length_lt {l : Lexeme} {input : List Char} (h : Covers l input)
    {kind : TokenKind} {text : List Char} (ht : l.content = .token kind text) :
    l.rest.length < input.length := by
  have hne := h.ne_nil kind text ht
  have hpos := List.length_pos_iff.2 hne
  rw [← h.append, List.length_append]
  omega

theorem fault_covers (f : LexicalFault) (raw rest : List Char) :
    Covers (fault f raw rest) (raw ++ rest) :=
  ⟨rfl, by simp [fault]⟩

theorem word_covers (c : Char) (cs : List Char) (h : isWordChar c = true) :
    Covers (word (c :: cs)) (c :: cs) :=
  ⟨List.takeWhile_append_dropWhile, by simp [word, h]⟩

theorem dotted_covers (cs : List Char) : Covers (dotted cs) ('.' :: cs) := by
  unfold dotted
  split
  · exact fault_covers ..
  · split
    · subst_vars; exact ⟨rfl, by simp⟩
    · split
      · exact ⟨congrArg ('.' :: ·) List.takeWhile_append_dropWhile, by simp⟩
      · split <;> exact fault_covers ..

theorem radixDigits_covers (radix : Radix) (seen cs : List Char) :
    Covers (radixDigits radix seen cs) (seen ++ cs) := by
  have happ : (seen ++ cs.takeWhile radix.accepts) ++ cs.dropWhile radix.accepts = seen ++ cs := by
    rw [List.append_assoc, List.takeWhile_append_dropWhile]
  unfold radixDigits
  simp only
  split
  · exact happ ▸ fault_covers ..
  · split
    · exact happ ▸ fault_covers ..
    · rename_i hlen
      refine ⟨happ, fun _ _ _ hnil => hlen ?_⟩
      have := congrArg List.length hnil
      simp only [List.length_append, List.length_nil] at this ⊢
      omega

theorem fraction_covers (seen cs : List Char) : Covers (fraction seen cs) (seen ++ cs) := by
  have happ : (seen ++ cs.takeWhile Char.isDigit) ++ cs.dropWhile Char.isDigit = seen ++ cs := by
    rw [List.append_assoc, List.takeWhile_append_dropWhile]
  have hfinish : Covers (if (seen ++ cs.takeWhile Char.isDigit).length = seen.length then
      fault .missingFraction (seen ++ cs.takeWhile Char.isDigit) (cs.dropWhile Char.isDigit)
      else ⟨.token .float (seen ++ cs.takeWhile Char.isDigit), seen ++ cs.takeWhile Char.isDigit,
        cs.dropWhile Char.isDigit⟩) (seen ++ cs) := by
    split
    · exact happ ▸ fault_covers ..
    · rename_i hlen
      refine ⟨happ, fun _ _ _ hnil => hlen ?_⟩
      have := congrArg List.length hnil
      simp only [List.length_append, List.length_nil] at this ⊢
      omega
  unfold fraction
  simp only
  split
  · split
    · exact happ ▸ fault_covers ..
    · exact hfinish
  · exact hfinish

theorem decimalDigits_covers (sign cs : List Char) (h : sign ≠ [] ∨ digitAhead cs = true) :
    Covers (decimalDigits sign cs) (sign ++ cs) := by
  have happ : (sign ++ cs.takeWhile Text.Digit.isDigit) ++ cs.dropWhile Text.Digit.isDigit =
      sign ++ cs := by
    rw [List.append_assoc, List.takeWhile_append_dropWhile]
  have hne : sign ++ cs.takeWhile Text.Digit.isDigit ≠ [] := by
    rcases h with h | h
    · simp [h]
    · cases cs with
      | nil => simp [digitAhead] at h
      | cons c cs => simp [digitAhead] at h; simp [h]
  unfold decimalDigits
  simp only
  split
  · rename_i c after hrest
    split
    · have hc : c = '.' := by simp_all
      have := fraction_covers ((sign ++ cs.takeWhile Text.Digit.isDigit) ++ ['.']) after
      subst hc
      rwa [List.append_assoc _ ['.'], List.singleton_append, ← hrest, happ] at this
    · split
      · rw [← happ, hrest]; exact fault_covers ..
      · exact ⟨by rw [← happ, hrest], fun _ _ _ => hne⟩
  · rename_i hrest
    exact ⟨by rw [← happ, hrest], fun _ _ _ => hne⟩

theorem unsigned_covers (sign cs : List Char) (h : sign ≠ [] ∨ digitAhead cs = true) :
    Covers (unsigned sign cs) (sign ++ cs) := by
  unfold unsigned
  split
  · split
    · have := radixDigits_covers ‹Radix› (sign ++ ['0', ‹Char›]) ‹List Char›
      simpa using this
    · exact decimalDigits_covers _ _ h
  · exact decimalDigits_covers _ _ h

theorem number_covers (cs : List Char) (h : digitAhead cs = true ∨ cs.head? = some '-') :
    Covers (number cs) cs := by
  unfold number
  split
  · exact unsigned_covers ['-'] _ (.inl (by simp))
  · refine unsigned_covers [] cs (.inr ?_)
    rcases h with h | h
    · exact h
    · cases cs <;> simp_all

theorem stringBody_append (cs : List Char) : (stringBody cs).raw ++ (stringBody cs).rest = cs := by
  fun_induction stringBody cs <;> simp_all [StringBody.push]

theorem string_covers (cs : List Char) : Covers (string cs) ('"' :: cs) := by
  unfold string
  simp only
  split
  · exact ⟨congrArg ('"' :: ·) (stringBody_append cs), by simp⟩
  · exact ⟨congrArg ('"' :: ·) (stringBody_append cs), by simp⟩

theorem closeCharacter_covers (value : Char) (raw rest : List Char) :
    Covers (closeCharacter value raw rest) (raw ++ rest) := by
  unfold closeCharacter
  split
  · exact ⟨by simp, by simp⟩
  all_goals exact fault_covers ..

theorem character_covers (cs : List Char) : Covers (character cs) ('\'' :: cs) := by
  unfold character
  split
  · exact fault_covers ..
  · exact fault_covers ..
  · exact fault_covers ..
  · exact fault_covers _ ['\'', '\\'] []
  · exact fault_covers _ ['\'', '\\'] _
  · split
    · exact closeCharacter_covers _ ['\'', '\\', _] _
    · exact fault_covers _ ['\'', '\\'] _
  · split
    · exact closeCharacter_covers _ ['\'', _] _
    · exact fault_covers _ ['\'', _] _

theorem angle_covers (c : Char) (operator : Operator) (cs : List Char) :
    Covers (angle c operator cs) (c :: cs) := by
  unfold angle
  split
  · split
    · subst_vars; exact ⟨rfl, by simp⟩
    · exact fault_covers _ [c] _
  · exact fault_covers _ [c] _

theorem isWordChar_of_isWordStart {c : Char} (h : isWordStart c = true) : isWordChar c = true := by
  simp only [isWordStart, isWordChar, Char.isAlphanum, Bool.or_eq_true] at h ⊢
  rcases h with h | h
  · exact .inl (.inl h)
  · exact .inr h

/-- A lexeme and the rest of the input are the input, and a token is never empty. -/
theorem scan_covers (c : Char) (cs : List Char) : Covers (scan c cs) (c :: cs) := by
  unfold scan
  split
  · exact word_covers c cs (isWordChar_of_isWordStart ‹_›)
  split
  · rename_i h
    refine number_covers _ ?_
    simp only [Bool.or_eq_true, Bool.and_eq_true, decide_eq_true_eq] at h
    rcases h with h | ⟨rfl, _⟩
    · exact .inl h
    · exact .inr rfl
  split
  · subst_vars; exact dotted_covers cs
  split
  · subst_vars; exact string_covers cs
  split
  · subst_vars; exact character_covers cs
  split
  · subst_vars; exact angle_covers ..
  split
  · subst_vars; exact angle_covers ..
  split
  · exact ⟨rfl, by simp⟩
  · exact fault_covers _ [] _

end AvmAssembler.Lexeme
