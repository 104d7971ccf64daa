import AvmAssembler.Proofs.Source.Spelling

/-! # Text in lines

Text is put together from lines, each of which spells some terminals or none at all. The end of a line divides lexemes,
so lines can be spelled one by one, and statements may be spread over them.
-/

namespace AvmAssembler

/-- The characters spell the terminals in front of any text that cannot continue their last lexeme. -/
def SpellsAhead (cs : List Char) (ts : List Terminal) : Prop :=
  ∀ rest us, Lexeme.Delimited rest → Spells rest us → Spells (cs ++ rest) (ts ++ us)

namespace SpellsAhead

variable {cs ds : List Char} {ts us : List Terminal}

theorem nil : SpellsAhead [] [] := fun _ _ _ h => h

theorem of_spelledBy {t : Terminal} {w : List Char} (h : t.SpelledBy w) : SpellsAhead w [t] :=
  fun _ _ hrest hspells => Spells.cons h hrest hspells

theorem blanks {gap : List Char} (hgap : ∀ c ∈ gap, Lexeme.isBlank c = true) (h : SpellsAhead cs ts) :
    SpellsAhead (gap ++ cs) ts := by
  intro rest vs hrest hspells
  rw [List.append_assoc]
  exact (h rest vs hrest hspells).blanks hgap

/-- Text that starts with a delimiter can follow any other. -/
theorem append {d : Char} (h : SpellsAhead cs ts) (hdelimiter : Lexeme.Delimited [d])
    (h' : SpellsAhead (d :: ds) us) : SpellsAhead (cs ++ d :: ds) (ts ++ us) := by
  intro rest vs hrest hspells
  rw [List.append_assoc, List.append_assoc]
  exact h _ _ (fun c hc => hdelimiter c hc) (h' rest vs hrest hspells)

theorem append_space (h : SpellsAhead cs ts) (h' : SpellsAhead ds us) :
    SpellsAhead (cs ++ ' ' :: ds) (ts ++ us) := by
  have hblank : ∀ c ∈ [' '], Lexeme.isBlank c = true := List.forall_mem_singleton.2 rfl
  have hspace : SpellsAhead (' ' :: ds) us := blanks hblank h'
  exact h.append (Lexeme.delimited_cons (by decide) (by decide) (by decide)) hspace

end SpellsAhead

/-- The lines, each ended by a line feed, spell the terminals in front of any other text. -/
def LinesSpell (lines : List String) (ts : List Terminal) : Prop :=
  ∀ rest us, Spells rest us → Spells (lines.flatMap (fun line => line.toList ++ ['\n']) ++ rest) (ts ++ us)

namespace LinesSpell

variable {line : String} {lines more : List String} {ts us : List Terminal}

theorem nil : LinesSpell [] [] := fun _ _ h => h

theorem single (h : SpellsAhead line.toList ts) : LinesSpell [line] ts := by
  intro rest us hspells
  have hfeed : Lexeme.Delimited ('\n' :: rest) := Lexeme.delimited_cons (by decide) (by decide) (by decide)
  have hline := h _ _ hfeed (.blank (by decide) hspells)
  simpa using hline

theorem comment {gap body : String} (hgap : ∀ c ∈ gap.toList, Lexeme.isBlank c = true)
    (hbody : '\n' ∉ body.toList) : LinesSpell [gap ++ ("#" ++ body)] [] := by
  intro rest us hspells
  have hcomment := (Spells.comment hbody hspells).blanks hgap
  simpa using hcomment

theorem append (h : LinesSpell lines ts) (h' : LinesSpell more us) : LinesSpell (lines ++ more) (ts ++ us) := by
  intro rest vs hspells
  rw [List.flatMap_append, List.append_assoc, List.append_assoc]
  exact h _ _ (h' _ _ hspells)

theorem spells (h : LinesSpell lines ts) :
    Spells (String.join (lines.map fun line => line ++ "\n")).toList ts := by
  have hall := h [] [] .nil
  simpa [List.flatMap_map] using hall

end LinesSpell

/-- The lines are a way to write the statements. -/
def LinesWrite (lines : List String) (ss : List Statement) : Prop :=
  ∃ ts, LinesSpell lines ts ∧ Statement.YieldAll ss ts

namespace LinesWrite

variable {lines more : List String} {ss others : List Statement}

theorem nil : LinesWrite [] [] := ⟨[], .nil, rfl⟩

theorem of_nothing (h : LinesSpell lines []) : LinesWrite lines [] := ⟨[], h, rfl⟩

theorem of_yields {s : Statement} {ts : List Terminal} (h : LinesSpell lines ts) (hs : s.Yields ts) :
    LinesWrite lines [s] :=
  ⟨ts, h, ts, [], hs, rfl, (List.append_nil ts).symm⟩

theorem append (h : LinesWrite lines ss) (h' : LinesWrite more others) :
    LinesWrite (lines ++ more) (ss ++ others) := by
  obtain ⟨ts, hts, hss⟩ := h
  obtain ⟨us, hus, hothers⟩ := h'
  exact ⟨ts ++ us, hts.append hus, hss.append hothers⟩

theorem flatMap {α : Type} {xs : List α} {f : α → List String} {g : α → List Statement}
    (h : ∀ x ∈ xs, LinesWrite (f x) (g x)) : LinesWrite (xs.flatMap f) (xs.flatMap g) := by
  induction xs with
  | nil => exact nil
  | cons x xs ih =>
    exact (h x (by simp)).append (ih fun y hy => h y (List.mem_cons_of_mem x hy))

end LinesWrite

end AvmAssembler
