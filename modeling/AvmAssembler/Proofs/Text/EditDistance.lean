import AvmAssembler.Text.EditDistance
import Mathlib.Data.List.Basic
import Mathlib.Order.Bounds.Basic

/-! # Distance as the least number of edits

An edit inserts, deletes or replaces one character, wherever in the text. Any edits that lead from one text to another
can be told as an alignment, which goes through both texts at once and pays for every character that it does not keep.
Keeping a character that both texts begin with is never worse than paying for it, so what an alignment of the first
characters costs at least is known from the alignments of shorter texts. The rows hold just these least costs, for texts
written back to front.
-/

namespace AvmAssembler.Text.EditDistance

variable {m n : Nat} {s t u : List Char}

/-! ## Edits -/

/-- One edit between two texts: a character is inserted, deleted or replaced. -/
inductive Edit : List Char → List Char → Prop
  | insert (before after : List Char) (c : Char) : Edit (before ++ after) (before ++ c :: after)
  | delete (before after : List Char) (c : Char) : Edit (before ++ c :: after) (before ++ after)
  | replace (before after : List Char) (c d : Char) : Edit (before ++ c :: after) (before ++ d :: after)

inductive Edits : Nat → List Char → List Char → Prop
  | none (s : List Char) : Edits 0 s s
  | more {n : Nat} {s t u : List Char} : Edit s t → Edits n t u → Edits (n + 1) s u

theorem Edit.symm (h : Edit s t) : Edit t s := by
  cases h with
  | insert before after c => exact .delete before after c
  | delete before after c => exact .insert before after c
  | replace before after c d => exact .replace before after d c

theorem Edit.cons (c : Char) (h : Edit s t) : Edit (c :: s) (c :: t) := by
  cases h with
  | insert before after d => exact .insert (c :: before) after d
  | delete before after d => exact .delete (c :: before) after d
  | replace before after d e => exact .replace (c :: before) after d e

theorem Edit.reverse (h : Edit s t) : Edit s.reverse t.reverse := by
  cases h with
  | insert before after c => simpa using Edit.insert after.reverse before.reverse c
  | delete before after c => simpa using Edit.delete after.reverse before.reverse c
  | replace before after c d => simpa using Edit.replace after.reverse before.reverse c d

namespace Edits

theorem single (h : Edit s t) : Edits 1 s t := .more h (.none t)

theorem append (hst : Edits m s t) (htu : Edits n t u) : Edits (m + n) s u := by
  induction hst with
  | none => rwa [Nat.zero_add]
  | more h _ ih =>
    rw [Nat.succ_add]
    exact .more h (ih htu)

theorem symm (h : Edits n s t) : Edits n t s := by
  induction h with
  | none s => exact .none s
  | more h _ ih => exact ih.append (single h.symm)

theorem cons (c : Char) (h : Edits n s t) : Edits n (c :: s) (c :: t) := by
  induction h with
  | none s => exact .none (c :: s)
  | more h _ ih => exact .more (h.cons c) ih

theorem reverse (h : Edits n s t) : Edits n s.reverse t.reverse := by
  induction h with
  | none s => exact .none s.reverse
  | more h _ ih => exact .more h.reverse ih

theorem reverse_iff : Edits n s.reverse t.reverse ↔ Edits n s t :=
  ⟨fun h => by simpa using h.reverse, reverse⟩

end Edits

/-! ## Alignments -/

/-- An alignment of two texts at a cost: character by character, it keeps one that both have next, or inserts, deletes
or replaces one at the cost of one. -/
inductive Aligned : Nat → List Char → List Char → Prop
  | nil : Aligned 0 [] []
  | keep {n : Nat} {s t : List Char} (c : Char) : Aligned n s t → Aligned n (c :: s) (c :: t)
  | insert {n : Nat} {s t : List Char} (d : Char) : Aligned n s t → Aligned (n + 1) s (d :: t)
  | delete {n : Nat} {s t : List Char} (c : Char) : Aligned n s t → Aligned (n + 1) (c :: s) t
  | replace {n : Nat} {s t : List Char} (c d : Char) : Aligned n s t → Aligned (n + 1) (c :: s) (d :: t)

/-- What an alignment of texts costs can be spent on another pair of texts, up to an allowance. -/
def Affords (allowance : Nat) (s t s' t' : List Char) : Prop :=
  ∀ n, Aligned n s t → ∃ m ≤ n + allowance, Aligned m s' t'

namespace Aligned

theorem symm (h : Aligned n s t) : Aligned n t s := by
  induction h with
  | nil => exact .nil
  | keep c _ ih => exact .keep c ih
  | insert d _ ih => exact .delete d ih
  | delete c _ ih => exact .insert c ih
  | replace c d _ ih => exact .replace d c ih

theorem refl (s : List Char) : Aligned 0 s s := by
  induction s with
  | nil => exact .nil
  | cons c s ih => exact .keep c ih

theorem edits (h : Aligned n s t) : Edits n s t := by
  induction h with
  | nil => exact .none []
  | keep c _ ih => exact ih.cons c
  | insert d _ ih => exact ih.append (.single (.insert [] _ d))
  | delete c _ ih => exact .more (.delete [] _ c) ih
  | replace c d _ ih => exact .more (.replace [] _ c d) (ih.cons d)

end Aligned

namespace Affords

/-- A first character that is kept, deleted or replaced decides; characters inserted before that are inserted again. -/
theorem of_first {s s' : List Char} (c : Char) (hkept : ∀ t, Affords 1 s t s' (c :: t))
    (hdeleted : ∀ t, Affords 2 s t s' t) (hreplaced : ∀ d t, Affords 2 s t s' (d :: t)) (t : List Char) :
    Affords 1 (c :: s) t s' t := by
  intro n h
  generalize hs : c :: s = r at h
  induction h with
  | nil => cases hs
  | @keep n r t e h _ =>
    obtain ⟨rfl, rfl⟩ := List.cons.inj hs
    exact hkept t n h
  | @insert n r t d _ ih =>
    obtain ⟨m, hm, hm'⟩ := ih hs
    exact ⟨m + 1, by omega, .insert d hm'⟩
  | @delete n r t e h _ =>
    obtain ⟨rfl, rfl⟩ := List.cons.inj hs
    exact hdeleted t n h
  | @replace n r t e d h _ =>
    obtain ⟨rfl, rfl⟩ := List.cons.inj hs
    exact hreplaced d t n h

/-- A text can be aligned without its first character at the cost of one more. -/
theorem tail (c : Char) (s t : List Char) : Affords 1 (c :: s) t s t := by
  refine of_first c ?_ ?_ ?_ t
  · exact fun _ n h => ⟨n + 1, Nat.le_refl _, .insert c h⟩
  · exact fun _ n h => ⟨n, by omega, h⟩
  · exact fun d _ n h => ⟨n + 1, by omega, .insert d h⟩

theorem cons (c : Char) (s t : List Char) : Affords 1 s t (c :: s) t :=
  fun n h => ⟨n + 1, Nat.le_refl _, .delete c h⟩

/-- Another first character costs one at most. -/
theorem head (c d : Char) (s t : List Char) : Affords 1 (c :: s) t (d :: s) t := by
  refine of_first c ?_ ?_ ?_ t
  · exact fun _ n h => ⟨n + 1, Nat.le_refl _, .replace d c h⟩
  · exact fun _ n h => ⟨n + 1, by omega, .delete d h⟩
  · exact fun e _ n h => ⟨n + 1, by omega, .replace d e h⟩

/-- What can be afforded for any second text can be afforded behind a common first character, too. -/
theorem behind {s s' : List Char} (c : Char) (h : ∀ t, Affords 1 s t s' t) (t : List Char) :
    Affords 1 (c :: s) t (c :: s') t := by
  refine of_first c (fun t n ha => ?_) (fun t n ha => ?_) (fun d t n ha => ?_) t
  all_goals obtain ⟨m, hm, hm'⟩ := h t n ha
  · exact ⟨m, hm, .keep c hm'⟩
  · exact ⟨m + 1, by omega, .delete c hm'⟩
  · exact ⟨m + 1, by omega, .replace c d hm'⟩

/-- An edit of the first text costs one at most. -/
theorem of_edit (h : Edit s t) (u : List Char) : Affords 1 t u s u := by
  cases h with
  | insert before after c =>
    induction before generalizing u with
    | nil => exact tail c after u
    | cons b before ih => exact behind b ih u
  | delete before after c =>
    induction before generalizing u with
    | nil => exact cons c after u
    | cons b before ih => exact behind b ih u
  | replace before after c d =>
    induction before generalizing u with
    | nil => exact head d c after u
    | cons b before ih => exact behind b ih u

/-- The greedy step: a first character that both texts have is kept at no extra cost. -/
theorem kept (c : Char) (s t : List Char) : Affords 0 (c :: s) (c :: t) s t := by
  intro n h
  cases h with
  | keep _ h => exact ⟨n, Nat.le_refl _, h⟩
  | insert _ h => exact tail c s t _ h
  | delete _ h =>
    obtain ⟨m, hm, hm'⟩ := tail c t s _ h.symm
    exact ⟨m, hm, hm'.symm⟩
  | replace _ _ h => exact ⟨_, Nat.le_succ _, h⟩

end Affords

/-- Edits can be told as an alignment that costs no more. -/
theorem Edits.aligned (h : Edits n s t) : ∃ m ≤ n, Aligned m s t := by
  induction h with
  | none s => exact ⟨0, Nat.le_refl 0, .refl s⟩
  | more h _ ih =>
    obtain ⟨m, hm, hm'⟩ := ih
    obtain ⟨k, hk, hk'⟩ := Affords.of_edit h _ m hm'
    exact ⟨k, by omega, hk'⟩

/-! ## Least costs -/

/-- The least cost of an alignment of two texts. -/
def Costs (s t : List Char) (n : Nat) : Prop := IsLeast {m | Aligned m s t} n

namespace Costs

variable {c d : Char}

theorem nil_left (t : List Char) : Costs [] t t.length := by
  constructor
  · induction t with
    | nil => exact .nil
    | cons d t ih => exact .insert d ih
  · intro m hm
    induction t generalizing m with
    | nil => exact Nat.zero_le m
    | cons d t ih =>
      cases hm with
      | insert _ h => exact Nat.succ_le_succ (ih h)

theorem symm (h : Costs s t n) : Costs t s n :=
  ⟨h.1.symm, fun _ hm => h.2 (Aligned.symm hm)⟩

theorem nil_right (s : List Char) : Costs s [] s.length := (nil_left s).symm

theorem keep (c : Char) (h : Costs s t n) : Costs (c :: s) (c :: t) n := by
  refine ⟨.keep c h.1, fun m hm => ?_⟩
  obtain ⟨k, hk, hk'⟩ := Affords.kept c s t m hm
  exact Nat.le_trans (h.2 hk') hk

/-- Different first characters cost one more than the best of the three ways to go on. -/
theorem differ {diagonal above left : Nat} (hne : c ≠ d) (hdiagonal : Costs s t diagonal)
    (habove : Costs s (d :: t) above) (hleft : Costs (c :: s) t left) :
    Costs (c :: s) (d :: t) (1 + min (min diagonal above) left) := by
  constructor
  · have hreplace : Aligned (diagonal + 1) (c :: s) (d :: t) := .replace c d hdiagonal.1
    have hdelete : Aligned (above + 1) (c :: s) (d :: t) := .delete c habove.1
    have hinsert : Aligned (left + 1) (c :: s) (d :: t) := .insert d hleft.1
    rw [Set.mem_ofPred_eq, Nat.add_comm]
    rcases Nat.le_total (min diagonal above) left with hmin | hmin
    · rw [Nat.min_eq_left hmin]
      rcases Nat.le_total diagonal above with hmin' | hmin'
      · rwa [Nat.min_eq_left hmin']
      · rwa [Nat.min_eq_right hmin']
    · rwa [Nat.min_eq_right hmin]
  · intro m hm
    cases hm with
    | keep => exact absurd rfl hne
    | insert _ h =>
      have hle := hleft.2 h
      omega
    | delete _ h =>
      have hle := habove.2 h
      omega
    | replace _ _ h =>
      have hle := hdiagonal.2 h
      omega

/-- The least cost is the least number of edits. -/
theorem isLeast_edits (h : Costs s t n) : IsLeast {m | Edits m s t} n := by
  refine ⟨h.1.edits, fun m hm => ?_⟩
  obtain ⟨k, hk, hk'⟩ := Edits.aligned hm
  exact Nat.le_trans (h.2 hk') hk

end Costs

/-! ## Rows -/

/-- The numbers are the costs of a text and another one, as more and more characters come in front of that. -/
inductive Row (s : List Char) : List Char → List Char → List Nat → Prop
  | nil {t : List Char} : Row s t [] []
  | cons {t : List Char} {d : Char} {ds : List Char} {n : Nat} {row : List Nat} :
      Costs s (d :: t) n → Row s (d :: t) ds row → Row s t (d :: ds) (n :: row)

/-- The row of a text: its costs with the starts of another one, written back to front and beginning with the empty
start. -/
def IsRow (s short : List Char) (row : List Nat) : Prop :=
  ∃ first rest, row = first :: rest ∧ Costs s [] first ∧ Row s [] short rest

theorem Row.extend {ds : List Char} {row : List Nat} (c : Char) {left diagonal : Nat} (hleft : Costs (c :: s) t left)
    (hdiagonal : Costs s t diagonal) (h : Row s t ds row) : Row (c :: s) t ds (extendRow c left diagonal ds row) := by
  induction h generalizing left diagonal with
  | nil => exact .nil
  | @cons t d ds above row habove _ ih =>
    have hentry : Costs (c :: s) (d :: t) (if c = d then diagonal else 1 + min (min diagonal above) left) := by
      split
      · subst d
        exact hdiagonal.keep c
      · exact .differ ‹_› hdiagonal habove hleft
    exact .cons hentry (ih hentry habove)

theorem IsRow.next {short : List Char} {row : List Nat} (c : Char) (h : IsRow s short row) :
    IsRow (c :: s) short (nextRow short c s.length row) := by
  obtain ⟨first, rest, rfl, hfirst, hrest⟩ := h
  have hlength : Costs (c :: s) [] (s.length + 1) := .nil_right (c :: s)
  exact ⟨_, _, rfl, hlength, hrest.extend c hlength hfirst⟩

theorem IsRow.last {short : List Char} {row : List Nat} (long : List Char) (h : IsRow s short row) :
    IsRow (long.reverse ++ s) short (lastRow short long s.length row) := by
  induction long generalizing s row with
  | nil => exact h
  | cons c long ih =>
    rw [List.reverse_cons, List.append_assoc]
    exact ih (h.next c)

/-- The numbers from a length on are the costs of inserting that many characters. -/
theorem row_range (t ds : List Char) : Row [] t ds (List.range' (t.length + 1) ds.length) := by
  induction ds generalizing t with
  | nil => exact .nil
  | cons d ds ih => exact .cons (.nil_left (d :: t)) (ih (d :: t))

theorem isRow_range (short : List Char) : IsRow [] short (List.range (short.length + 1)) :=
  ⟨0, List.range' 1 short.length, by rw [List.range_eq_range', List.range'_succ], .nil_left [], row_range [] short⟩

theorem Row.getLast {ds : List Char} {row : List Nat} (h : Row s t ds row) (hfirst : Costs s t n) :
    Costs s (ds.reverse ++ t) (((n :: row).getLast?).getD 0) := by
  induction h generalizing n with
  | nil => exact hfirst
  | @cons t d ds above row habove _ ih =>
    rw [List.reverse_cons, List.append_assoc, List.getLast?_cons_cons]
    exact ih habove

/-- The last entry of the last row. -/
theorem costs_ofLonger (long short : List Char) : Costs long.reverse short.reverse (ofLonger long short) := by
  obtain ⟨first, rest, hrow, hfirst, hrest⟩ := (isRow_range short).last long
  rw [List.append_nil] at hfirst hrest
  have hlast := hrest.getLast hfirst
  rw [List.append_nil, ← hrow] at hlast
  exact hlast

theorem isLeast_ofLonger (long short : List Char) : IsLeast {n | Edits n long short} (ofLonger long short) := by
  have hreversed := (costs_ofLonger long short).isLeast_edits
  simpa only [Edits.reverse_iff] using hreversed

theorem edits_symm_iff : Edits n s t ↔ Edits n t s := ⟨Edits.symm, Edits.symm⟩

theorem isLeast_between (s t : List Char) : IsLeast {n | Edits n s t} (between s t) := by
  unfold between
  split
  · simpa only [edits_symm_iff (s := t)] using isLeast_ofLonger t s
  · exact isLeast_ofLonger s t

/-- The distance of two texts is the least number of insertions, deletions and replacements of one character that lead
from one to the other. So it is a distance: it is the same both ways, it is zero just between equal texts, and a detour
over another text is never shorter. -/
theorem between_least_edits (s t : List Char) :
    IsLeast {n | Edits n s t} (between s t) ∧ between s t = between t s ∧ (between s t = 0 ↔ s = t) ∧
      ∀ u, between s u ≤ between s t + between t u := by
  have hst := isLeast_between s t
  refine ⟨hst, ?_, ?_, fun u => ?_⟩
  · have hts := isLeast_between t s
    simp only [edits_symm_iff (s := t)] at hts
    exact hst.unique hts
  · constructor
    · intro hzero
      have hedits : Edits 0 s t := hzero ▸ hst.1
      cases hedits
      rfl
    · rintro rfl
      exact Nat.le_zero.1 (hst.2 (Edits.none s))
  · exact (isLeast_between s u).2 (hst.1.append (isLeast_between t u).1)

end AvmAssembler.Text.EditDistance
