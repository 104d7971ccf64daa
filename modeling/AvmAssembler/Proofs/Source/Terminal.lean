import AvmAssembler.Proofs.Source.Boundary
import AvmAssembler.Source.Scanner

/-! # Terminals

A terminal is a token without its place. Source text spells a sequence of terminals when it consists of their
lexemes with blanks and comments around them; such text is scanned to the end, and its tokens are these terminals
in order.
-/

namespace AvmAssembler

structure Terminal where
  kind : TokenKind
  text : String
  deriving DecidableEq, Inhabited

def Token.terminal (t : Token) : Terminal := ⟨t.kind, t.text⟩

@[simp] theorem Token.terminal_kind (t : Token) : t.terminal.kind = t.kind := rfl

@[simp] theorem Token.terminal_text (t : Token) : t.terminal.text = t.text := rfl

/-- The text consists of the lexemes of the terminals, with blanks and comments around them. -/
inductive Spells : List Char → List Terminal → Prop
  | nil : Spells [] []
  | blank {c cs ts} : Lexeme.isBlank c = true → Spells cs ts → Spells (c :: cs) ts
  | comment {body cs ts} : '\n' ∉ body → Spells cs ts → Spells ('#' :: (body ++ '\n' :: cs)) ts
  | lastComment {body} : '\n' ∉ body → Spells ('#' :: body) []
  | lexeme {c w kind text rest ts} : Lexeme.scan c (w ++ rest) = ⟨.token kind text, c :: w, rest⟩ →
      Spells rest ts → Spells (c :: (w ++ rest)) (⟨kind, String.ofList text⟩ :: ts)

/-! ## Scanning spelled text -/

theorem Lexeme.not_gap_of_scan {c : Char} {cs w r text : List Char} {kind : TokenKind}
    (h : Lexeme.scan c cs = ⟨.token kind text, w, r⟩) : Lexeme.isBlank c = false ∧ c ≠ '#' := by
  have hfault : ∀ d : Char, d ∈ [' ', '\t', '\n', '\r', '\x0b', '\x0c', '#'] →
      Lexeme.scan d cs = Lexeme.fault (.unexpectedCharacter d) [] (d :: cs) := by
    intro d hd
    simp only [List.mem_cons, List.not_mem_nil, or_false] at hd
    rcases hd with rfl | rfl | rfl | rfl | rfl | rfl | rfl <;> rfl
  constructor
  · apply Bool.eq_false_iff.2
    intro hblank
    have hmem : c ∈ [' ', '\t', '\n', '\r', '\x0b', '\x0c', '#'] := by
      simp only [Lexeme.isBlank, Bool.or_eq_true, decide_eq_true_eq] at hblank
      rcases hblank with ((((rfl | rfl) | rfl) | rfl) | rfl) | rfl <;> simp
    simp [hfault c hmem, Lexeme.fault] at h
  · rintro rfl
    simp [hfault '#' (by simp), Lexeme.fault] at h

theorem Lexeme.ne_newline_of_scan {c : Char} {cs w r text : List Char} {kind : TokenKind}
    (h : scan c cs = ⟨.token kind text, w, r⟩) : c ≠ '\n' := by
  rintro rfl
  exact absurd (not_gap_of_scan h).1 (by decide)

namespace Cursor

variable {source : Source} {cs : List Char} {p : Position}

theorem tokens_eq (source : Source) (cursor : Cursor) :
    cursor.tokens source = match cursor.next source with
      | (.token t, stop) => (t :: (stop.tokens source).1, (stop.tokens source).2)
      | (.ending ending, _) => ([], ending) := by
  rw [Cursor.tokens]
  split <;> simp_all

theorem tokens_of_token {cursor stop : Cursor} {t : Token} (h : cursor.next source = (.token t, stop)) :
    cursor.tokens source = (t :: (stop.tokens source).1, (stop.tokens source).2) := by
  rw [tokens_eq, h]

theorem tokens_of_ending {cursor stop : Cursor} {ending : Ending}
    (h : cursor.next source = (.ending ending, stop)) : cursor.tokens source = ([], ending) := by
  rw [tokens_eq, h]

theorem next_of_skipGap {p q : Position} {cs ds : List Char}
    (h : skipGap false cs p = skipGap false ds q) :
    (Cursor.mk cs p).next source = (Cursor.mk ds q).next source := by
  simp only [next, h]

theorem tokens_of_skipGap {p q : Position} {cs ds : List Char}
    (h : skipGap false cs p = skipGap false ds q) :
    (Cursor.mk cs p).tokens source = (Cursor.mk ds q).tokens source := by
  rw [tokens_eq, tokens_eq, next_of_skipGap h]

theorem skipGap_blank {c : Char} (hc : Lexeme.isBlank c = true) (cs : List Char) (p : Position) :
    skipGap false (c :: cs) p = skipGap false cs (p.step c) := by
  simp [skipGap, hc]

theorem skipGap_hash (cs : List Char) (p : Position) :
    skipGap false ('#' :: cs) p = skipGap true cs (p.step '#') := by
  simp [skipGap, Lexeme.isBlank]

theorem skipGap_inComment {body : List Char} (hbody : '\n' ∉ body) (cs : List Char) (p : Position) :
    skipGap true (body ++ cs) p = skipGap true cs (p.after body) := by
  induction body generalizing p with
  | nil => rfl
  | cons c body ih =>
    have hc : c ≠ '\n' := fun hc => hbody (by simp [hc])
    have hrest : '\n' ∉ body := fun hmem => hbody (by simp [hmem])
    simp [skipGap, hc, ih hrest, Position.after]

theorem skipGap_newline (cs : List Char) (p : Position) :
    skipGap true ('\n' :: cs) p = skipGap false cs (p.step '\n') := by
  simp [skipGap]

theorem next_of_scan {c : Char} {w rest text : List Char} {kind : TokenKind}
    (h : Lexeme.scan c (w ++ rest) = ⟨.token kind text, c :: w, rest⟩) (p : Position) :
    (Cursor.mk (c :: (w ++ rest)) p).next source =
      (.token ⟨kind, String.ofList text, source.locate p (c :: w).length⟩,
        ⟨rest, p.after (c :: w)⟩) := by
  obtain ⟨hblank, hhash⟩ := Lexeme.not_gap_of_scan h
  simp [next, skipGap, hblank, hhash, h]

theorem tokens_of_gap {q : Position} (h : skipGap false cs p = ⟨[], q⟩) :
    (Cursor.mk cs p).tokens source = ([], .complete (source.locate q 0)) := by
  have hnext : (Cursor.mk cs p).next source = (.ending (.complete (source.locate q 0)), ⟨[], q⟩) := by
    simp only [next, h]
  exact tokens_of_ending hnext

/-- The tokens of spelled text are its terminals in order, and nothing in it is malformed. -/
theorem tokens_of_spells {ts : List Terminal} (h : Spells cs ts) (source : Source) (p : Position) :
    ((Cursor.mk cs p).tokens source).1.map Token.terminal = ts ∧
      ∃ l, ((Cursor.mk cs p).tokens source).2 = .complete l := by
  induction h generalizing p with
  | nil =>
    have hgap : skipGap false [] p = ⟨[], p⟩ := rfl
    simp [tokens_of_gap hgap]
  | blank hc _ ih =>
    rw [tokens_of_skipGap (skipGap_blank hc _ p)]
    exact ih _
  | @comment body cs ts hbody _ ih =>
    have hskip := skipGap_hash (body ++ '\n' :: cs) p
    rw [skipGap_inComment hbody, skipGap_newline] at hskip
    rw [tokens_of_skipGap hskip]
    exact ih _
  | @lastComment body hbody =>
    have hskip := skipGap_hash (body ++ []) p
    rw [skipGap_inComment hbody, List.append_nil] at hskip
    simp [tokens_of_gap hskip]
  | @lexeme c w kind text rest ts hscan _ ih =>
    rw [tokens_of_token (next_of_scan hscan p)]
    obtain ⟨hmap, hending⟩ := ih (p.after (c :: w))
    exact ⟨by simp [hmap, Token.terminal], hending⟩

end Cursor

/-- Text that spells terminals is scanned to them. -/
theorem tokenize_of_spells {text : String} {ts : List Terminal} (h : Spells text.toList ts) (file : String) :
    ∃ tokens l, tokenize file text = (tokens, .complete l) ∧ tokens.map Token.terminal = ts := by
  obtain ⟨hmap, l, hending⟩ := Cursor.tokens_of_spells h (Source.ofText file text) {}
  exact ⟨_, l, Prod.ext rfl hending, hmap⟩

/-! ## Composing spelled text -/

namespace Spells

variable {cs rest : List Char} {ts : List Terminal}

theorem blanks {gap : List Char} (hgap : ∀ c ∈ gap, Lexeme.isBlank c = true) (h : Spells cs ts) :
    Spells (gap ++ cs) ts := by
  induction gap with
  | nil => exact h
  | cons c gap ih =>
    exact .blank (hgap c (by simp)) (ih fun d hd => hgap d (by simp [hd]))

end Spells

/-- The characters are by themselves a lexeme of the terminal. -/
def Terminal.SpelledBy (t : Terminal) (w : List Char) : Prop :=
  ∃ c cs, w = c :: cs ∧ Lexeme.scan c cs = ⟨.token t.kind t.text.toList, w, []⟩

instance (t : Terminal) (w : List Char) : Decidable (t.SpelledBy w) :=
  match w with
  | [] => isFalse fun ⟨_, _, h, _⟩ => by cases h
  | c :: cs =>
    decidable_of_iff (Lexeme.scan c cs = ⟨.token t.kind t.text.toList, c :: cs, []⟩)
      ⟨fun h => ⟨c, cs, rfl, h⟩, fun ⟨_, _, heq, h⟩ => by
        obtain ⟨rfl, rfl⟩ := List.cons.inj heq
        exact h⟩

/-- What is scanned as a token is a lexeme of it without the text behind, too. -/
theorem Terminal.spelledBy_of_scan {c : Char} {cs w rest text : List Char} {kind : TokenKind}
    (h : Lexeme.scan c cs = ⟨.token kind text, w, rest⟩) : SpelledBy ⟨kind, String.ofList text⟩ w := by
  have hcovers := Lexeme.scan_covers c cs
  rw [h] at hcovers
  obtain ⟨d, v, rfl⟩ := List.exists_cons_of_ne_nil (hcovers.ne_nil kind text rfl)
  obtain rfl : d = c := (List.cons.inj hcovers.append).1
  have hscan := Lexeme.scan_delimited h Lexeme.delimited_nil
  rw [List.append_nil] at hscan
  exact ⟨d, v, rfl, by simpa using hscan⟩

/-- A lexeme by itself is scanned as one token, which stands for all of the text. -/
theorem tokenize_of_spelledBy {t : Terminal} {w : List Char} (h : t.SpelledBy w) (file : String) :
    ∃ l, tokenize file (String.ofList w) =
      ([⟨t.kind, t.text, (Source.ofText file (String.ofList w)).locate {} w.length⟩], .complete l) := by
  obtain ⟨c, cs, rfl, hscan⟩ := h
  have hscan' : Lexeme.scan c (cs ++ []) = ⟨.token t.kind t.text.toList, c :: cs, []⟩ := by rwa [List.append_nil]
  have hnext : Cursor.next (.ofText file (String.ofList (c :: cs))) ⟨c :: (cs ++ []), {}⟩ = _ :=
    Cursor.next_of_scan hscan' {}
  rw [List.append_nil, String.ofList_toList] at hnext
  have hstart : Cursor.ofText (String.ofList (c :: cs)) = ⟨c :: cs, {}⟩ := by
    rw [Cursor.ofText, String.toList_ofList]
  have htokens := Cursor.tokens_of_token hnext
  have hgap : Cursor.skipGap false [] (Position.after {} (c :: cs)) = ⟨[], Position.after {} (c :: cs)⟩ := rfl
  rw [Cursor.tokens_of_gap hgap, ← hstart] at htokens
  exact ⟨_, htokens⟩

theorem Spells.cons {t : Terminal} {w rest : List Char} {ts : List Terminal} (ht : t.SpelledBy w)
    (hrest : Lexeme.Delimited rest) (h : Spells rest ts) : Spells (w ++ rest) (t :: ts) := by
  obtain ⟨c, cs, rfl, hscan⟩ := ht
  simpa using Spells.lexeme (Lexeme.scan_delimited hscan hrest) h

/-- Lexemes with a space between each and the next spell their terminals. -/
theorem spells_intercalate {α : Type} (terminal : α → Terminal) (spelling : α → String) (items : List α)
    (h : ∀ x ∈ items, (terminal x).SpelledBy (spelling x).toList) :
    Spells (" ".intercalate (items.map spelling)).toList (items.map terminal) := by
  match items with
  | [] => simpa using Spells.nil
  | [x] => simpa using Spells.cons (h x (by simp)) Lexeme.delimited_nil .nil
  | x :: y :: items =>
    have hspace : Lexeme.Delimited (' ' :: (" ".intercalate ((y :: items).map spelling)).toList) :=
      Lexeme.delimited_cons (by decide) (by decide) (by decide)
    have hrest := spells_intercalate terminal spelling (y :: items)
      fun z hz => h z (List.mem_cons_of_mem x hz)
    simpa [String.intercalate_cons_cons] using
      Spells.cons (h x (by simp)) hspace (.blank (by decide) hrest)

end AvmAssembler
