import AvmAssembler.Source.Lexeme.Coverage

/-! # Boundaries of lexemes

Where a token ends does not depend on what the input held after it, as long as the text after it cannot continue a
lexeme. A token can therefore be moved in front of any such text and is read there with the same extent.
-/

namespace AvmAssembler.Lexeme

/-- The text cannot continue a lexeme: it is empty, or its first character belongs to no word or number and is no
dot. -/
def Delimited (rest : List Char) : Prop :=
  ∀ c ∈ rest.head?, isWordChar c = false ∧ Text.Digit.isDigit c = false ∧ c ≠ '.'

@[simp] theorem delimited_nil : Delimited [] := by simp [Delimited]

theorem delimited_cons {c : Char} {cs : List Char} (hword : isWordChar c = false)
    (hdigit : Text.Digit.isDigit c = false) (hdot : c ≠ '.') : Delimited (c :: cs) := by
  intro d hd
  cases hd
  exact ⟨hword, hdigit, hdot⟩

theorem delimited_of_isBlank {c : Char} (h : isBlank c = true) (cs : List Char) : Delimited (c :: cs) := by
  simp only [isBlank, Bool.or_eq_true, decide_eq_true_eq] at h
  rcases h with ((((rfl | rfl) | rfl) | rfl) | rfl) | rfl <;>
    exact delimited_cons (by decide) (by decide) (by decide)

/-! ## Character classes -/

theorem isWordChar_of_isDigit {c : Char} (h : c.isDigit = true) : isWordChar c = true := by
  simp [isWordChar, Char.isAlphanum, h]

theorem isAlpha_iff {c : Char} :
    c.isAlpha = true ↔ (65 ≤ c.toNat ∧ c.toNat ≤ 90) ∨ (97 ≤ c.toNat ∧ c.toNat ≤ 122) := by
  change (decide (c.val ≥ 'A'.val ∧ c.val ≤ 'Z'.val) || (decide (c.val ≥ 'a'.val) && decide (c.val ≤ 'z'.val))) =
    true ↔ _
  simp only [Bool.or_eq_true, Bool.and_eq_true, decide_eq_true_eq, ge_iff_le, UInt32.le_iff_toNat_le]
  rfl

theorem isWordChar_of_isAlpha {c : Char} (h : c.isAlpha = true) : isWordChar c = true := by
  simp [isWordChar, Char.isAlphanum, h]

theorem isWordChar_of_accepts {radix : Radix} {c : Char} (h : radix.accepts c = true) :
    isWordChar c = true := by
  unfold Radix.accepts at h
  split at h
  · rename_i d hd
    simp only [Text.Digit.hexValue?] at hd
    split at hd
    · rename_i hdigit
      exact isWordChar_of_isDigit (by simpa [Char.isDigit, Char.le_def] using hdigit)
    split at hd
    · rename_i hlower
      have hlow : 97 ≤ c.toNat := UInt32.le_iff_toNat_le.1 hlower.1
      have hhigh : c.toNat ≤ 102 := UInt32.le_iff_toNat_le.1 hlower.2
      exact isWordChar_of_isAlpha (isAlpha_iff.2 (.inr ⟨hlow, by omega⟩))
    split at hd
    · rename_i hupper
      have hlow : 65 ≤ c.toNat := UInt32.le_iff_toNat_le.1 hupper.1
      have hhigh : c.toNat ≤ 70 := UInt32.le_iff_toNat_le.1 hupper.2
      exact isWordChar_of_isAlpha (isAlpha_iff.2 (.inl ⟨hlow, by omega⟩))
    · simp at hd
  · simp at h

theorem ofLetter?_eq_none {c : Char} (h : isWordChar c = false) : Radix.ofLetter? c = none := by
  unfold Radix.ofLetter?
  repeat' split
  all_goals first
    | rfl
    | (rename_i hc; rcases hc with rfl | rfl <;> simp [isWordChar] at h)

theorem digitAhead_eq_false {rest : List Char} (h : Delimited rest) : digitAhead rest = false := by
  cases rest with
  | nil => rfl
  | cons c cs => exact (h c rfl).2.1

section Runs

variable {p : Char → Bool} {rest : List Char}

/-- A run of characters of a class, followed by text that does not go on with the class, is read again. -/
theorem takeWhile_run_append (hrest : ∀ c ∈ rest.head?, p c = false) (cs : List Char) :
    (cs.takeWhile p ++ rest).takeWhile p = cs.takeWhile p := by
  rw [List.takeWhile_append_of_pos (List.all_eq_true.1 List.all_takeWhile)]
  cases rest with
  | nil => simp
  | cons c rest => simp [hrest c rfl]

theorem dropWhile_run_append (hrest : ∀ c ∈ rest.head?, p c = false) (cs : List Char) :
    (cs.takeWhile p ++ rest).dropWhile p = rest := by
  rw [List.dropWhile_append_of_pos (List.all_eq_true.1 List.all_takeWhile)]
  cases rest with
  | nil => rfl
  | cons c rest => simp [hrest c rfl]

end Runs

variable {cs w r rest text : List Char} {kind : TokenKind}

theorem Delimited.head_false (h : Delimited rest) {p : Char → Bool}
    (hp : ∀ c, p c = true → isWordChar c = true) : ∀ c ∈ rest.head?, p c = false := by
  intro c hc
  apply Bool.eq_false_iff.2
  intro hpc
  have hword := (h c hc).1
  rw [hp c hpc] at hword
  cases hword

theorem Delimited.isWordChar (h : Delimited rest) : ∀ c ∈ rest.head?, isWordChar c = false :=
  fun c hc => (h c hc).1

theorem Delimited.isDigit (h : Delimited rest) : ∀ c ∈ rest.head?, Text.Digit.isDigit c = false :=
  fun c hc => (h c hc).2.1

/-! ## Each kind of lexeme -/

theorem word_delimited (h : word cs = ⟨.token kind text, w, r⟩) (hrest : Delimited rest) :
    word (w ++ rest) = ⟨.token kind text, w, rest⟩ := by
  simp only [word, Lexeme.mk.injEq, LexemeContent.token.injEq] at h ⊢
  obtain ⟨⟨hkind, rfl⟩, rfl, -⟩ := h
  rw [takeWhile_run_append hrest.isWordChar, dropWhile_run_append hrest.isWordChar]
  exact ⟨⟨hkind, rfl⟩, rfl, rfl⟩

theorem dotted_delimited (h : dotted cs = ⟨.token kind text, '.' :: w, r⟩)
    (hrest : Delimited rest) : dotted (w ++ rest) = ⟨.token kind text, '.' :: w, rest⟩ := by
  cases cs with
  | nil => simp [dotted, fault] at h
  | cons c cs =>
    simp only [dotted] at h
    split at h
    · simp only [Lexeme.mk.injEq, LexemeContent.token.injEq, List.cons.injEq, true_and] at h
      obtain ⟨⟨rfl, rfl⟩, rfl, -⟩ := h
      simp [dotted]
    · rename_i hdot
      split at h
      · rename_i hword
        simp only [List.takeWhile_cons, hword, if_true, Lexeme.mk.injEq, LexemeContent.token.injEq,
          List.cons.injEq, true_and] at h
        obtain ⟨⟨rfl, rfl⟩, rfl, -⟩ := h
        simp only [dotted, List.cons_append, hdot, hword, if_true, if_false, List.takeWhile_cons,
          List.dropWhile_cons, takeWhile_run_append hrest.isWordChar,
          dropWhile_run_append hrest.isWordChar]
      · split at h <;> simp [fault] at h

theorem radixDigits_delimited {radix : Radix} {seen : List Char}
    (h : radixDigits radix seen cs = ⟨.token kind text, seen ++ w, r⟩) (hrest : Delimited rest) :
    radixDigits radix seen (w ++ rest) = ⟨.token kind text, seen ++ w, rest⟩ := by
  have hhead : ∀ c ∈ rest.head?, radix.accepts c = false :=
    hrest.head_false fun _ => isWordChar_of_accepts
  have hnone : rest.head?.filter Lexeme.isWordChar = none := by
    cases rest with
    | nil => rfl
    | cons c rest => simp [hrest.isWordChar c rfl]
  simp only [radixDigits] at h
  split at h
  · simp [fault] at h
  · split at h
    · simp [fault] at h
    · rename_i hlen
      simp only [Lexeme.mk.injEq, LexemeContent.token.injEq, List.append_cancel_left_eq] at h
      obtain ⟨⟨rfl, rfl⟩, rfl, -⟩ := h
      simp only [radixDigits, takeWhile_run_append hhead, dropWhile_run_append hhead, hnone, if_neg hlen]

theorem fraction_delimited {seen : List Char}
    (h : fraction seen cs = ⟨.token kind text, seen ++ w, r⟩) (hrest : Delimited rest) :
    fraction seen (w ++ rest) = ⟨.token kind text, seen ++ w, rest⟩ := by
  have hhead := hrest.head_false fun c => isWordChar_of_isDigit (c := c)
  have hfinish : (if (seen ++ cs.takeWhile Char.isDigit).length = seen.length then
      fault .missingFraction (seen ++ cs.takeWhile Char.isDigit) (cs.dropWhile Char.isDigit)
      else ⟨.token .float (seen ++ cs.takeWhile Char.isDigit), seen ++ cs.takeWhile Char.isDigit,
        cs.dropWhile Char.isDigit⟩ : Lexeme) = ⟨.token kind text, seen ++ w, r⟩ := by
    simp only [fraction] at h
    split at h
    · split at h
      · simp [fault] at h
      · exact h
    · exact h
  split at hfinish
  · simp [fault] at hfinish
  · rename_i hlen
    simp only [Lexeme.mk.injEq, LexemeContent.token.injEq, List.append_cancel_left_eq] at hfinish
    obtain ⟨⟨rfl, rfl⟩, rfl, -⟩ := hfinish
    simp only [fraction, takeWhile_run_append hhead, dropWhile_run_append hhead, if_neg hlen]
    cases rest with
    | nil => rfl
    | cons c rest =>
      have hc := hrest c rfl
      simp [hc.1, hc.2.2]

/-- A fraction that is a token has the digits after the point, at least one. -/
theorem fraction_eq_token {seen : List Char} (h : fraction seen cs = ⟨.token kind text, w, r⟩) :
    w = seen ++ cs.takeWhile Char.isDigit ∧ cs.takeWhile Char.isDigit ≠ [] := by
  have hraw : w = seen ++ cs.takeWhile Char.isDigit := by
    have := congrArg Lexeme.raw h
    simp only [fraction] at this
    split at this
    · split at this
      · simpa [fault] using this.symm
      · split at this <;> simpa [fault] using this.symm
    · split at this <;> simpa [fault] using this.symm
  refine ⟨hraw, fun hnil => ?_⟩
  simp only [fraction, hnil, List.append_nil, if_true] at h
  split at h
  · split at h <;> simp [fault] at h
  · simp [fault] at h

theorem digitAhead_takeWhile_append (h : cs.takeWhile Char.isDigit ≠ []) (rest : List Char) :
    digitAhead (cs.takeWhile Char.isDigit ++ rest) = digitAhead cs := by
  cases cs with
  | nil => simp at h
  | cons c cs =>
    cases hc : c.isDigit with
    | true => simp [digitAhead, hc]
    | false => simp [hc] at h

theorem decimalDigits_delimited {sign : List Char}
    (h : decimalDigits sign cs = ⟨.token kind text, sign ++ w, r⟩) (hrest : Delimited rest) :
    decimalDigits sign (w ++ rest) = ⟨.token kind text, sign ++ w, rest⟩ := by
  have hplain : (⟨.token (.integer .decimal) (sign ++ cs.takeWhile Text.Digit.isDigit),
      sign ++ cs.takeWhile Text.Digit.isDigit, cs.dropWhile Text.Digit.isDigit⟩ : Lexeme) =
        ⟨.token kind text, sign ++ w, r⟩ →
      decimalDigits sign (w ++ rest) = ⟨.token kind text, sign ++ w, rest⟩ := by
    intro h
    simp only [Lexeme.mk.injEq, LexemeContent.token.injEq, List.append_cancel_left_eq] at h
    obtain ⟨⟨rfl, rfl⟩, rfl, -⟩ := h
    simp only [decimalDigits, takeWhile_run_append hrest.isDigit, dropWhile_run_append hrest.isDigit]
    cases rest with
    | nil => rfl
    | cons c rest =>
      have hc := hrest c rfl
      simp [hc.1, hc.2.2]
  simp only [decimalDigits] at h
  split at h
  · rename_i c after hdrop
    split at h
    · rename_i hpoint
      simp only [Bool.and_eq_true, decide_eq_true_eq] at hpoint
      obtain ⟨hraw, hne⟩ := fraction_eq_token h
      have hw : w = cs.takeWhile Text.Digit.isDigit ++ '.' :: after.takeWhile Char.isDigit := by
        simpa using hraw
      have hdot : ∀ d ∈ ('.' :: (after.takeWhile Char.isDigit ++ rest)).head?,
          Text.Digit.isDigit d = false := by
        intro d hd
        cases hd
        decide
      rw [hraw] at h
      have hfraction := fraction_delimited h hrest
      simp only [decimalDigits, hw, List.append_assoc, List.cons_append, takeWhile_run_append hdot,
        dropWhile_run_append hdot, digitAhead_takeWhile_append hne, hpoint.2, decide_true, Bool.and_true,
        if_true]
      simpa using hfraction
    · split at h
      · simp [fault] at h
      · exact hplain (hdrop ▸ h)
  · rename_i hdrop
    exact hplain (hdrop ▸ h)

/-- The base whose letter stands after a leading zero. -/
def announced? : List Char → Option Radix
  | z :: c :: _ => if z = '0' then Radix.ofLetter? c else none
  | _ => none

theorem unsigned_of_announced (sign : List Char) {radix : Radix} (h : announced? cs = some radix) :
    ∃ c tail, cs = '0' :: c :: tail ∧
      ∀ after, unsigned sign ('0' :: c :: after) = radixDigits radix (sign ++ ['0', c]) after := by
  match cs, h with
  | z :: c :: tail, h =>
    simp only [announced?] at h
    split at h
    · rename_i hz
      exact ⟨c, tail, by rw [hz], fun after => by simp [unsigned, h]⟩
    · cases h

theorem unsigned_of_not_announced {sign : List Char} (h : announced? cs = none) :
    unsigned sign cs = decimalDigits sign cs := by
  unfold unsigned
  split
  · simp only [announced?, if_true] at h
    simp [h]
  · rfl

/-- Text after a lexeme does not bring in the letter of a base. -/
theorem announced?_append (hrest : Delimited rest) (h : announced? (w ++ r) = none) :
    announced? (w ++ rest) = none := by
  match w, rest with
  | [], [] => rfl
  | [], [c] => rfl
  | [], c :: d :: rest =>
    have hc := (hrest c rfl).1
    have hz : c ≠ '0' := by
      rintro rfl
      simp [Lexeme.isWordChar] at hc
    simp [announced?, hz]
  | [c], [] => rfl
  | [c], d :: rest => simp [announced?, ofLetter?_eq_none (hrest d rfl).1]
  | c :: d :: w, _ => simpa [announced?] using h

theorem radixDigits_raw {radix : Radix} {seen : List Char} :
    (radixDigits radix seen cs).raw = seen ++ cs.takeWhile radix.accepts := by
  simp only [radixDigits]
  split
  · rfl
  · split <;> rfl

theorem decimalDigits_raw_prefix {sign : List Char}
    (h : decimalDigits sign cs = ⟨.token kind text, w, r⟩) :
    sign ++ cs.takeWhile Text.Digit.isDigit <+: w := by
  simp only [decimalDigits] at h
  split at h
  · split at h
    · obtain ⟨rfl, -⟩ := fraction_eq_token h
      simp only [List.append_assoc, List.prefix_append_right_inj, List.prefix_append]
    · split at h
      · simp [fault] at h
      · simp only [Lexeme.mk.injEq] at h
        exact h.2.1 ▸ List.prefix_rfl
  · simp only [Lexeme.mk.injEq] at h
    exact h.2.1 ▸ List.prefix_rfl

/-- A number has characters besides its sign. -/
theorem unsigned_ne_nil (sign : List Char) (hahead : digitAhead cs = true)
    (h : unsigned sign cs = ⟨.token kind text, sign ++ w, r⟩) : w ≠ [] := by
  cases hann : announced? cs with
  | some radix =>
    obtain ⟨c, tail, rfl, hread⟩ := unsigned_of_announced sign hann
    rw [hread] at h
    have hraw := congrArg Lexeme.raw h
    rw [radixDigits_raw, List.append_assoc, List.append_cancel_left_eq] at hraw
    simp [← hraw]
  | none =>
    rw [unsigned_of_not_announced hann] at h
    have hprefix := decimalDigits_raw_prefix h
    rintro rfl
    cases cs with
    | nil => cases hahead
    | cons c cs =>
      have hc : Text.Digit.isDigit c = true := hahead
      rw [List.takeWhile_cons_of_pos hc, List.prefix_append_right_inj] at hprefix
      cases List.prefix_nil.1 hprefix

theorem unsigned_delimited (sign : List Char) (hahead : sign ≠ [] ∨ digitAhead cs = true)
    (h : unsigned sign cs = ⟨.token kind text, sign ++ w, r⟩) (hrest : Delimited rest) :
    unsigned sign (w ++ rest) = ⟨.token kind text, sign ++ w, rest⟩ := by
  cases hann : announced? cs with
  | some radix =>
    obtain ⟨c, tail, rfl, hread⟩ := unsigned_of_announced sign hann
    rw [hread] at h
    have hraw := congrArg Lexeme.raw h
    rw [radixDigits_raw, List.append_assoc, List.append_cancel_left_eq] at hraw
    rw [← hraw, ← List.append_assoc] at h ⊢
    rw [List.append_assoc]
    exact (hread _).trans (radixDigits_delimited h hrest)
  | none =>
    have hcs : w ++ r = cs := by
      have hcovers := (unsigned_covers sign cs hahead).append
      rw [h, List.append_assoc, List.append_cancel_left_eq] at hcovers
      exact hcovers
    rw [unsigned_of_not_announced hann] at h
    rw [unsigned_of_not_announced (announced?_append hrest (hcs ▸ hann))]
    exact decimalDigits_delimited h hrest

/-- A number without a minus sign in front is read as it stands. -/
theorem number_of_ne_minus (h : cs.head? ≠ some '-') : number cs = unsigned [] cs := by
  unfold number
  split
  · simp at h
  · rfl

theorem number_delimited (hahead : digitAhead cs = true ∨ cs.head? = some '-')
    (h : number cs = ⟨.token kind text, w, r⟩) (hrest : Delimited rest) :
    number (w ++ rest) = ⟨.token kind text, w, rest⟩ := by
  have hcovers := number_covers cs hahead
  rw [h] at hcovers
  have hne := hcovers.ne_nil kind text rfl
  have hcs : w ++ r = cs := hcovers.append
  obtain ⟨c, v, rfl⟩ := List.exists_cons_of_ne_nil hne
  subst hcs
  by_cases hc : c = '-'
  · subst hc
    exact unsigned_delimited ['-'] (.inl (by simp)) h hrest
  · rw [number_of_ne_minus (by simpa using hc)] at h ⊢
    have hdigit : digitAhead (c :: v ++ r) = true := by
      rcases hahead with hd | hd
      · exact hd
      · simp at hd; exact absurd hd hc
    exact unsigned_delimited [] (.inr hdigit) h hrest

theorem stringBody_quote (cs : List Char) : stringBody ('"' :: cs) = ⟨.ok [], ['"'], cs⟩ := by
  simp [stringBody]

theorem stringBody_escape {c d : Char} (h : escape? c = some d) (cs : List Char) :
    stringBody ('\\' :: c :: cs) = (stringBody cs).push d ['\\', c] := by
  have hc : c ≠ '\n' := by
    rintro rfl
    simp [escape?] at h
  rw [stringBody.eq_6 c cs (fun h' => hc h'), h]

theorem stringBody_plain {c : Char} (hquote : c ≠ '"') (hnewline : c ≠ '\n') (hescape : c ≠ '\\')
    (cs : List Char) : stringBody (c :: cs) = (stringBody cs).push c [c] := by
  rw [stringBody.eq_def]
  split <;> simp_all

theorem push_eq_ok {c : Char} {written : List Char} {b : StringBody}
    (h : (b.push c written).text = .ok text) : ∃ t, b.text = .ok t ∧ text = c :: t := by
  cases hb : b.text with
  | ok t =>
    simp only [StringBody.push, hb, Except.map, Except.ok.injEq] at h
    exact ⟨t, rfl, h.symm⟩
  | error e => simp [StringBody.push, hb, Except.map] at h

theorem ne_backslash_of_cases {c : Char} {after : List Char} (hend : c = '\\' → after = [] → False)
    (hescape : ∀ (d : Char) (rest : List Char), c = '\\' → after = d :: rest → False) : c ≠ '\\' := by
  rintro rfl
  cases after with
  | nil => exact hend rfl rfl
  | cons d after => exact hescape d after rfl rfl

/-- The text after a closing quote is not looked at. -/
theorem stringBody_append_rest (h : (stringBody cs).text = .ok text) (rest : List Char) :
    stringBody ((stringBody cs).raw ++ rest) = ⟨.ok text, (stringBody cs).raw, rest⟩ := by
  fun_induction stringBody cs generalizing text with
  | case2 after =>
    cases h
    exact stringBody_quote rest
  | case6 c after hc d hd ih =>
    obtain ⟨t, ht, rfl⟩ := push_eq_ok h
    simp only [StringBody.push, List.cons_append, List.nil_append, stringBody_escape hd, ih ht, Except.map]
  | case8 c after hquote hnewline hend hbreak hescape ih =>
    obtain ⟨t, ht, rfl⟩ := push_eq_ok h
    have hne := ne_backslash_of_cases hend hescape
    simp only [StringBody.push, List.cons_append, List.nil_append,
      stringBody_plain hquote hnewline hne, ih ht, Except.map]
  | case1 | case3 | case4 | case5 | case7 => cases h

theorem string_append_rest (h : string cs = ⟨.token kind text, '"' :: w, r⟩) (rest : List Char) :
    string (w ++ rest) = ⟨.token kind text, '"' :: w, rest⟩ := by
  simp only [string] at h
  split at h
  · rename_i t ht
    simp only [Lexeme.mk.injEq, LexemeContent.token.injEq, List.cons.injEq, true_and] at h
    obtain ⟨⟨rfl, rfl⟩, rfl, -⟩ := h
    simp [string, stringBody_append_rest ht]
  · simp at h

theorem closeCharacter_eq_token {c : Char} {seen : List Char}
    (h : closeCharacter c seen cs = ⟨.token kind text, w, r⟩) :
    kind = .character ∧ text = [c] ∧ w = seen ++ ['\''] ∧ cs = '\'' :: r := by
  unfold closeCharacter at h
  split at h
  · simp only [Lexeme.mk.injEq, LexemeContent.token.injEq] at h
    obtain ⟨⟨rfl, rfl⟩, rfl, rfl⟩ := h
    exact ⟨rfl, rfl, rfl, rfl⟩
  all_goals simp [fault] at h

theorem character_plain {c : Char} (hnewline : c ≠ '\n') (hquote : c ≠ '\'') (hescape : c ≠ '\\') (cs : List Char) :
    character (c :: cs) =
      if c.toNat < 0x80 then closeCharacter c ['\'', c] cs else fault .wideCharacter ['\'', c] cs := by
  unfold character
  split
  case h_7 heq =>
    obtain ⟨rfl, rfl⟩ := List.cons.inj heq
    rfl
  all_goals simp_all

theorem character_append_rest (h : character cs = ⟨.token kind text, '\'' :: w, r⟩)
    (rest : List Char) : character (w ++ rest) = ⟨.token kind text, '\'' :: w, rest⟩ := by
  unfold character at h
  split at h
  · simp [fault] at h
  · simp [fault] at h
  · simp [fault] at h
  · simp [fault] at h
  · simp [fault] at h
  · rename_i c after hbreak
    split at h
    · rename_i d hd
      obtain ⟨rfl, rfl, hw, rfl⟩ := closeCharacter_eq_token h
      simp only [List.cons_append, List.nil_append, List.cons.injEq, true_and] at hw
      subst hw
      simp [character, hd, closeCharacter]
    · simp [fault] at h
  · rename_i c after hnewline hquote hend hbreak hescape
    split at h
    · rename_i hbyte
      obtain ⟨rfl, rfl, hw, rfl⟩ := closeCharacter_eq_token h
      simp only [List.cons_append, List.nil_append, List.cons.injEq, true_and] at hw
      subst hw
      have hne : c ≠ '\\' := fun hc => hescape _ _ hc rfl
      simp only [List.cons_append, List.nil_append, character_plain hnewline hquote hne, if_pos hbyte,
        closeCharacter]
    · simp [fault] at h

theorem angle_append_rest {c : Char} {operator : Operator}
    (h : angle c operator cs = ⟨.token kind text, c :: w, r⟩) (rest : List Char) :
    angle c operator (w ++ rest) = ⟨.token kind text, c :: w, rest⟩ := by
  cases cs with
  | nil => simp [angle, fault] at h
  | cons d cs =>
    simp only [angle] at h
    split at h
    · simp only [Lexeme.mk.injEq, LexemeContent.token.injEq, List.cons.injEq, true_and] at h
      obtain ⟨⟨rfl, rfl⟩, rfl, -⟩ := h
      simp [angle]
    · simp [fault] at h

/-- Whether a digit comes next is the same before the rest of the input and before a delimited one, unless the token has
ended. -/
theorem digitAhead_append_rest (r : List Char) (hrest : Delimited rest) :
    digitAhead (w ++ rest) = (digitAhead (w ++ r) && !w.isEmpty) := by
  cases w with
  | nil => simp [digitAhead_eq_false hrest]
  | cons d w => simp [digitAhead]

/-- A number is still told from an operator. -/
theorem numberAhead_append_rest {c : Char} (hrest : Delimited rest)
    (hnumber : (Text.Digit.isDigit c || (decide (c = '-') && digitAhead (w ++ r))) = true)
    (h : number (c :: (w ++ r)) = ⟨.token kind text, c :: w, r⟩) :
    (Text.Digit.isDigit c || (decide (c = '-') && digitAhead (w ++ rest))) = true := by
  rw [digitAhead_append_rest r hrest]
  simp only [Bool.or_eq_true, Bool.and_eq_true, decide_eq_true_eq] at hnumber
  rcases hnumber with hc | ⟨rfl, hcs⟩
  · simp [hc]
  · have hne := unsigned_ne_nil ['-'] hcs h
    simp [hcs, hne]

/-- A token is read with the same extent in front of any text that cannot continue a lexeme. -/
theorem scan_delimited {c : Char} (h : scan c cs = ⟨.token kind text, c :: w, r⟩)
    (hrest : Delimited rest) : scan c (w ++ rest) = ⟨.token kind text, c :: w, rest⟩ := by
  obtain rfl : w ++ r = cs := by
    have hcovers := (scan_covers c cs).append
    rw [h] at hcovers
    exact (List.cons.inj hcovers).2
  unfold scan at h ⊢
  split at h
  · rename_i hword
    rw [if_pos hword]
    exact word_delimited h hrest
  rename_i hword
  rw [if_neg hword]
  split at h
  · rename_i hnumber
    rw [if_pos (numberAhead_append_rest hrest hnumber h)]
    simp only [Bool.or_eq_true, Bool.and_eq_true, decide_eq_true_eq] at hnumber
    have hstart : digitAhead (c :: (w ++ r)) = true ∨ (c :: (w ++ r)).head? = some '-' := by
      rcases hnumber with hc | ⟨rfl, -⟩
      · exact .inl hc
      · exact .inr rfl
    exact number_delimited hstart h hrest
  rename_i hnumber
  have hoperator : ¬(Text.Digit.isDigit c || (decide (c = '-') && digitAhead (w ++ rest))) = true := by
    rw [digitAhead_append_rest r hrest]
    simp only [Bool.or_eq_true, Bool.and_eq_true, decide_eq_true_eq, not_or, not_and] at hnumber ⊢
    exact ⟨hnumber.1, fun hc hd => absurd hd (hnumber.2 hc)⟩
  rw [if_neg hoperator]
  split at h
  · subst_vars
    rw [if_pos rfl]
    exact dotted_delimited h hrest
  rename_i hdot
  rw [if_neg hdot]
  split at h
  · subst_vars
    rw [if_pos rfl]
    exact string_append_rest h rest
  rename_i hquote
  rw [if_neg hquote]
  split at h
  · subst_vars
    rw [if_pos rfl]
    exact character_append_rest h rest
  rename_i hsingle
  rw [if_neg hsingle]
  split at h
  · subst_vars
    rw [if_pos rfl]
    exact angle_append_rest h rest
  rename_i hless
  rw [if_neg hless]
  split at h
  · subst_vars
    rw [if_pos rfl]
    exact angle_append_rest h rest
  rename_i hgreater
  rw [if_neg hgreater]
  split at h
  · simp only [Lexeme.mk.injEq, LexemeContent.token.injEq, List.cons.injEq, true_and] at h
    obtain ⟨⟨rfl, rfl⟩, rfl, -⟩ := h
    simp
  · simp [fault] at h

end AvmAssembler.Lexeme
