import Mathlib.Data.List.Induction
import AvmAssembler.Proofs.Assembly.Layout
import AvmAssembler.Proofs.Reports

/-! # Histories of a collector

A collector is called again and again, also after it has refused something. The counts always agree with the entries, and
there are never more errors and notes than the limit allows. A call is refused just where it would record one more of
them: what it has recorded by then stays, and the rest of it is left out.
-/

namespace AvmAssembler.Diagnostics

open Assembly (endState)

/-! ## What is recorded -/

/-- Errors and notes count toward the limit. -/
def counts (d : Diagnostic) : Bool := d.severity ≠ .warning

/-- The collector with more diagnostics behind its entries. Warnings are left out where they are hidden. -/
def append (ds : Diagnostics) (list : List Diagnostic) : Diagnostics :=
  { ds with
    entries := ds.entries ++ list.filter fun d => counts d || ds.showWarnings
    errorCount := ds.errorCount + list.countP fun d => d.severity = .error
    counted := ds.counted + list.countP counts }

variable {ds : Diagnostics} {d : Diagnostic} {list kept : List Diagnostic}

@[simp] theorem append_nil (ds : Diagnostics) : ds.append [] = ds := by
  simp [append]

@[simp] theorem append_append (ds : Diagnostics) (list more : List Diagnostic) :
    (ds.append list).append more = ds.append (list ++ more) := by
  simp [append, Nat.add_assoc]

theorem append_counted (ds : Diagnostics) (list : List Diagnostic) :
    (ds.append list).counted = ds.counted + list.countP counts := rfl

/-- Nothing is left out of errors and notes. -/
theorem append_entries (h : ∀ d ∈ list, counts d = true) : (ds.append list).entries = ds.entries ++ list := by
  have hall : (list.filter fun d => counts d || ds.showWarnings) = list := by
    apply List.filter_eq_self.2
    intro d hd
    rw [h d hd, Bool.true_or]
  rw [append, hall]

theorem record_of_room (h : counts d = true → (ds.counted : Int) < ds.limit) :
    record d ds = .ok () (ds.append [d]) := by
  by_cases hwarning : d.severity = .warning
  · rw [record_of_warning hwarning]
    obtain ⟨limit, shown, entries, errorCount, counted, truncated⟩ := ds
    cases shown <;> simp [warn, push, append, counts, hwarning]
  · have hroom : (ds.counted : Int) < ds.limit := h (by simp [counts, hwarning])
    rw [record_of_not_le hwarning (by omega)]
    by_cases herror : d.severity = .error <;> simp [push, append, counts, hwarning, herror]

theorem record_of_full (hd : counts d = true) (h : (ds.counted : Int) = ds.limit) :
    record d ds = .error ⟨ds.limit⟩ { ds with truncated := true } := by
  have hwarning : d.severity ≠ .warning := by simpa [counts] using hd
  exact record_of_le hwarning (by omega)

theorem recordAll_append (list more : List Diagnostic) :
    recordAll (list ++ more) = recordAll list >>= fun _ => recordAll more := by
  induction list with
  | nil => rfl
  | cons d list ih =>
    funext ds
    rw [List.cons_append, recordAll, ih, recordAll]
    cases hd : record d ds with
    | ok x es => rw [bind_of_ok hd, bind_assoc, bind_of_ok hd]
    | error e es => rw [bind_of_error hd, bind_assoc, bind_of_error hd]

/-- Where there is room for all errors and notes of a list, the list is recorded. -/
theorem recordAll_of_room (h : ((ds.append list).counted : Int) ≤ ds.limit) :
    recordAll list ds = .ok () (ds.append list) := by
  induction list generalizing ds with
  | nil =>
    rw [append_nil]
    rfl
  | cons d list ih =>
    have hroom : counts d = true → (ds.counted : Int) < ds.limit := by
      intro hd
      rw [append_counted, List.countP_cons_of_pos hd] at h
      omega
    have hrest : recordAll list (ds.append [d]) = .ok () ((ds.append [d]).append list) := by
      apply ih
      rwa [append_append]
    rw [recordAll, bind_of_ok (record_of_room hroom), hrest, append_append, List.singleton_append]

/-- Behind some diagnostics of the list comes an error or a note, and by then as many of these are recorded as the limit
allows. -/
def Overflows (ds : Diagnostics) (list kept : List Diagnostic) : Prop :=
  ∃ d rest, list = kept ++ d :: rest ∧ counts d = true ∧ ((ds.counted + kept.countP counts : Nat) : Int) = ds.limit

/-- The list is recorded up to the diagnostic for which there is no room. -/
theorem recordAll_of_overflows (h : Overflows ds list kept) :
    recordAll list ds = .error ⟨ds.limit⟩ { ds.append kept with truncated := true } := by
  obtain ⟨d, rest, rfl, hd, hfull⟩ := h
  have hkept : recordAll kept ds = .ok () (ds.append kept) := recordAll_of_room (Int.le_of_eq hfull)
  have hrefused : record d (ds.append kept) = .error ⟨ds.limit⟩ { ds.append kept with truncated := true } :=
    record_of_full hd hfull
  rw [recordAll_append, bind_of_ok hkept, recordAll, bind_of_error hrefused]

/-- Where there is no room for all of a list, there is a first diagnostic for which there is none. -/
theorem exists_overflows (hroom : (ds.counted : Int) ≤ ds.limit)
    (hmore : ds.limit < ((ds.append list).counted : Int)) : ∃ kept, Overflows ds list kept := by
  induction list generalizing ds with
  | nil =>
    rw [append_nil] at hmore
    omega
  | cons d list ih =>
    by_cases hfirst : counts d = true ∧ (ds.counted : Int) = ds.limit
    · exact ⟨[], d, list, rfl, hfirst⟩
    · have hroom' : ((ds.append [d]).counted : Int) ≤ ds.limit := by
        rw [append_counted, List.countP_singleton]
        split
        · rename_i hd
          have hne : (ds.counted : Int) ≠ ds.limit := fun hfull => hfirst ⟨hd, hfull⟩
          omega
        · omega
      have hmore' : ds.limit < (((ds.append [d]).append list).counted : Int) := by
        rwa [append_append]
      obtain ⟨kept, d', rest, rfl, hd', hfull⟩ := ih hroom' hmore'
      refine ⟨d :: kept, d', rest, rfl, hd', ?_⟩
      rwa [← append_counted, append_append] at hfull

/-! ## Calls -/

/-- A call on a collector: record an error, a warning or a note, record a fault with its notes and its hint, or forget
everything. -/
inductive Call where
  | record (d : Diagnostic)
  | add (fault : Fault)
  | reset

namespace Call

def diagnostics : Call → List Diagnostic
  | record d => [d]
  | add fault => ofFault fault
  | reset => []

def perform : Call → Recorder Unit
  | record d => Diagnostics.record d
  | add fault => Diagnostics.add fault
  | reset => modify Diagnostics.reset

/-- The collector after a call, whether it was refused or not. -/
def after (c : Call) (ds : Diagnostics) : Diagnostics := endState c.perform ds

def afterAll (calls : List Call) (ds : Diagnostics) : Diagnostics :=
  calls.foldl (fun ds c => c.after ds) ds

def Refused (c : Call) (ds : Diagnostics) : Prop :=
  ∃ refusal, c.perform ds = .error refusal (c.after ds)

def isReset : Call → Bool
  | reset => true
  | _ => false

variable {c : Call} {calls : List Call} {start : Diagnostics}

theorem afterAll_snoc (calls : List Call) (c : Call) (ds : Diagnostics) :
    afterAll (calls ++ [c]) ds = c.after (afterAll calls ds) := by
  rw [afterAll, List.foldl_append]
  rfl

/-- Any call but a reset records its diagnostics. -/
theorem perform_eq (h : c.isReset = false) : c.perform = recordAll c.diagnostics := by
  cases c with
  | record d => exact bind_pure_unit.symm
  | add fault => rfl
  | reset => cases h

theorem after_reset (ds : Diagnostics) : reset.after ds = ds.reset := rfl

theorem counts_of_mem (hd : d ∈ c.diagnostics) (hcounts : counts d = true) : ∀ d' ∈ c.diagnostics, counts d' = true := by
  cases c with
  | record d₀ =>
    obtain rfl : d = d₀ := List.mem_singleton.1 hd
    intro d' hd'
    rwa [List.mem_singleton.1 hd']
  | add fault =>
    intro d' hd'
    have hreport : d' ∈ (Report.fault fault).diagnostics := hd'
    rcases List.mem_cons.1 hreport with rfl | hnote
    · rfl
    · simp [counts, Report.severity_of_mem_notes hnote]
  | reset => cases hd

theorem not_refused_of_room (hroom : ((ds.append c.diagnostics).counted : Int) ≤ ds.limit) : ¬c.Refused ds := by
  rintro ⟨refusal, hrefused⟩
  cases hreset : c.isReset with
  | true =>
    cases c with
    | reset => cases hrefused
    | record | add => cases hreset
  | false =>
    rw [perform_eq hreset, recordAll_of_room hroom] at hrefused
    cases hrefused

theorem after_of_room (hreset : c.isReset = false) (hroom : ((ds.append c.diagnostics).counted : Int) ≤ ds.limit) :
    c.after ds = ds.append c.diagnostics := by
  rw [after, perform_eq hreset, endState, recordAll_of_room hroom]

/-- What a call that is refused leaves, and how it is refused. -/
theorem perform_of_overflows (h : Overflows ds c.diagnostics kept) :
    c.perform ds = .error ⟨ds.limit⟩ (c.after ds) ∧ c.after ds = { ds.append kept with truncated := true } := by
  have hreset : c.isReset = false := by
    obtain ⟨d, rest, hlist, -⟩ := h
    cases c with
    | reset => simp [diagnostics] at hlist
    | record | add => rfl
  have hrefused := recordAll_of_overflows h
  rw [← perform_eq hreset] at hrefused
  have hafter : c.after ds = { ds.append kept with truncated := true } := by
    rw [after, endState, hrefused]
  exact ⟨by rw [hafter, hrefused], hafter⟩

end Call

/-! ## Books -/

/-- The books of a collector: what it counts is what it holds, and errors and notes are within the limit. -/
structure Balanced (ds : Diagnostics) : Prop where
  errorCount : ds.errorCount = ds.entries.countP fun d => d.severity = .error
  counted : ds.counted = ds.entries.countP counts
  counted_le : (ds.counted : Int) ≤ ds.limit

/-- A condition that only what counts satisfies holds as often where warnings are left out. -/
theorem countP_visible {p : Diagnostic → Bool} (hp : ∀ d, p d = true → counts d = true) (shown : Bool)
    (list : List Diagnostic) : (list.filter fun d => counts d || shown).countP p = list.countP p := by
  rw [List.countP_filter]
  apply List.countP_congr
  intro d _
  cases hd : p d with
  | true => simp [hp d hd]
  | false => simp

theorem Balanced.append (h : Balanced ds) (hroom : ((ds.append list).counted : Int) ≤ ds.limit) :
    Balanced (ds.append list) where
  errorCount := by
    have hcounts : ∀ d : Diagnostic, decide (d.severity = .error) = true → counts d = true := by
      intro d hd
      simp [counts, of_decide_eq_true hd]
    rw [Diagnostics.append, List.countP_append, countP_visible hcounts, h.errorCount]
  counted := by
    rw [Diagnostics.append, List.countP_append, countP_visible fun _ hd => hd, h.counted]
  counted_le := hroom

/-- There is room for all that a call has to record, or there is not. -/
theorem Balanced.cases (h : Balanced ds) (c : Call) :
    ((ds.append c.diagnostics).counted : Int) ≤ ds.limit ∨ ∃ kept, Overflows ds c.diagnostics kept := by
  by_cases hroom : ((ds.append c.diagnostics).counted : Int) ≤ ds.limit
  · exact .inl hroom
  · exact .inr (exists_overflows h.counted_le (by omega))

/-- A call is refused just where the limit stops it. -/
theorem Balanced.refused_iff (h : Balanced ds) (c : Call) :
    c.Refused ds ↔ ∃ kept, Overflows ds c.diagnostics kept := by
  constructor
  · intro hrefused
    rcases h.cases c with hroom | hoverflows
    · exact absurd hrefused (Call.not_refused_of_room hroom)
    · exact hoverflows
  · rintro ⟨kept, hoverflows⟩
    exact ⟨_, (Call.perform_of_overflows hoverflows).1⟩

theorem Balanced.after (h : Balanced ds) (c : Call) :
    Balanced (c.after ds) ∧ (c.after ds).limit = ds.limit ∧ (c.after ds).showWarnings = ds.showWarnings := by
  cases hreset : c.isReset with
  | true =>
    cases c with
    | record | add => cases hreset
    | reset =>
      have hcounted := h.counted_le
      have hwithin : ((ds.reset.counted : Nat) : Int) ≤ ds.limit := by
        change ((0 : Nat) : Int) ≤ ds.limit
        omega
      exact ⟨⟨rfl, rfl, hwithin⟩, rfl, rfl⟩
  | false =>
    rcases h.cases c with hroom | ⟨kept, hoverflows⟩
    · rw [Call.after_of_room hreset hroom]
      exact ⟨h.append hroom, rfl, rfl⟩
    · have hkept : Balanced (ds.append kept) := by
        obtain ⟨d, rest, -, -, hfull⟩ := hoverflows
        exact h.append (Int.le_of_eq hfull)
      rw [(Call.perform_of_overflows hoverflows).2]
      exact ⟨⟨hkept.errorCount, hkept.counted, hkept.counted_le⟩, rfl, rfl⟩

/-! ## Histories -/

def sinceReset (calls : List Call) : List Call :=
  (calls.reverse.takeWhile fun c => !c.isReset).reverse

theorem sinceReset_snoc (calls : List Call) (c : Call) :
    sinceReset (calls ++ [c]) = if c.isReset then [] else sinceReset calls ++ [c] := by
  rw [sinceReset, List.reverse_append, List.reverse_singleton, List.singleton_append, List.takeWhile_cons]
  cases c.isReset <;> simp [sinceReset]

/-- A call behind the last reset was refused. -/
def RefusedSince (start : Diagnostics) (calls : List Call) : Prop :=
  ∃ earlier c later, calls = earlier ++ c :: later ∧ c.Refused (Call.afterAll earlier start) ∧
    ∀ c' ∈ later, c'.isReset = false

theorem refusedSince_snoc (start : Diagnostics) (calls : List Call) (c : Call) :
    RefusedSince start (calls ++ [c]) ↔
      c.Refused (Call.afterAll calls start) ∨ c.isReset = false ∧ RefusedSince start calls := by
  constructor
  · rintro ⟨earlier, c', later, hcalls, hrefused, hlater⟩
    induction later using List.reverseRecOn with
    | nil =>
      obtain ⟨rfl, hc⟩ := List.append_inj' hcalls rfl
      obtain rfl : c = c' := by simpa using hc
      exact .inl hrefused
    | append_singleton later c'' _ =>
      rw [← List.cons_append, ← List.append_assoc] at hcalls
      obtain ⟨rfl, hc⟩ := List.append_inj' hcalls rfl
      obtain rfl : c = c'' := by simpa using hc
      refine .inr ⟨hlater c (by simp), earlier, c', later, rfl, hrefused, fun c'' hc'' => hlater c'' ?_⟩
      exact List.mem_append_left _ hc''
  · rintro (hrefused | ⟨hreset, earlier, c', later, rfl, hrefused, hlater⟩)
    · exact ⟨calls, c, [], rfl, hrefused, by simp⟩
    · refine ⟨earlier, c', later ++ [c], by simp, hrefused, ?_⟩
      intro c'' hc''
      rcases List.mem_append.1 hc'' with hc'' | hc''
      · exact hlater c'' hc''
      · rwa [List.mem_singleton.1 hc'']

section

variable {start : Diagnostics} {calls : List Call}

/-- Whatever is called, the settings stay and the books are balanced. -/
theorem afterAll_balanced (h : Balanced start) (calls : List Call) :
    Balanced (Call.afterAll calls start) ∧ (Call.afterAll calls start).limit = start.limit ∧
      (Call.afterAll calls start).showWarnings = start.showWarnings := by
  induction calls using List.reverseRecOn with
  | nil => exact ⟨h, rfl, rfl⟩
  | append_singleton calls c ih =>
    obtain ⟨hbalanced, hlimit, hshown⟩ := ih
    obtain ⟨hbalanced', hlimit', hshown'⟩ := hbalanced.after c
    rw [Call.afterAll_snoc]
    exact ⟨hbalanced', hlimit'.trans hlimit, hshown'.trans hshown⟩

/-- The collector is truncated just if a call was refused since it was last reset. -/
theorem truncated_iff (h : Balanced start) (hfresh : start.truncated = false) (calls : List Call) :
    (Call.afterAll calls start).truncated = true ↔ RefusedSince start calls := by
  induction calls using List.reverseRecOn with
  | nil => simp [Call.afterAll, hfresh, RefusedSince]
  | append_singleton calls c ih =>
    have hbalanced := (afterAll_balanced h calls).1
    rw [refusedSince_snoc, Call.afterAll_snoc, ← ih]
    cases hreset : c.isReset with
    | true =>
      cases c with
      | record | add => cases hreset
      | reset =>
        have hnot : ¬Call.reset.Refused (Call.afterAll calls start) := by
          rintro ⟨refusal, hrefused⟩
          cases hrefused
        simp [hnot, Call.after_reset, Diagnostics.reset]
    | false =>
      rcases hbalanced.cases c with hroom | ⟨kept, hoverflows⟩
      · have hnot := Call.not_refused_of_room hroom
        rw [Call.after_of_room hreset hroom]
        simp [hnot, append]
      · have hrefused := (hbalanced.refused_iff c).2 ⟨kept, hoverflows⟩
        rw [(Call.perform_of_overflows hoverflows).2]
        simp [hrefused]

theorem warnings_append (ds : Diagnostics) (list : List Diagnostic) :
    (ds.append list).entries.filter (fun d => !counts d) =
      ds.entries.filter (fun d => !counts d) ++ if ds.showWarnings then list.filter fun d => !counts d else [] := by
  rw [append, List.filter_append, List.filter_filter]
  congr 1
  cases ds.showWarnings with
  | true => simp
  | false =>
    apply List.filter_eq_nil_iff.2
    intro d _
    simp

theorem filter_warnings_of_counts (h : ∀ d ∈ list, counts d = true) : list.filter (fun d => !counts d) = [] := by
  apply List.filter_eq_nil_iff.2
  intro d hd
  simp [h d hd]

/-- Shown warnings are all there since the last reset, in their order, and hidden ones are not. -/
theorem warnings_afterAll (h : Balanced start) (hfresh : start.entries = []) (calls : List Call) :
    (Call.afterAll calls start).entries.filter (fun d => !counts d) =
      if start.showWarnings then ((sinceReset calls).flatMap Call.diagnostics).filter fun d => !counts d else [] := by
  induction calls using List.reverseRecOn with
  | nil => simp [Call.afterAll, hfresh, sinceReset]
  | append_singleton calls c ih =>
    obtain ⟨hbalanced, -, hshown⟩ := afterAll_balanced h calls
    rw [sinceReset_snoc, Call.afterAll_snoc]
    cases hreset : c.isReset with
    | true =>
      cases c with
      | record | add => cases hreset
      | reset => simp [Call.after_reset, Diagnostics.reset]
    | false =>
      have hbehind : (if false = true then [] else sinceReset calls ++ [c]) = sinceReset calls ++ [c] := rfl
      rw [hbehind, List.flatMap_append, List.flatMap_singleton, List.filter_append]
      rcases hbalanced.cases c with hroom | ⟨kept, hoverflows⟩
      · rw [Call.after_of_room hreset hroom, warnings_append, ih, hshown]
        cases start.showWarnings <;> simp
      · obtain ⟨d, rest, hlist, hd, -⟩ := id hoverflows
        have hall : ∀ d' ∈ c.diagnostics, counts d' = true := Call.counts_of_mem (by simp [hlist]) hd
        have hkept : ∀ d' ∈ kept, counts d' = true := fun d' hd' => hall d' (by simp [hlist, hd'])
        rw [(Call.perform_of_overflows hoverflows).2]
        change (List.filter (fun d => !counts d) ((Call.afterAll calls start).append kept).entries) = _
        rw [warnings_append, ih, filter_warnings_of_counts hall, filter_warnings_of_counts hkept]
        cases start.showWarnings <;> simp

end

/-- Over every history of calls, also after refusals, errors are counted as they stand among the entries, and so are
errors and notes together, which are never more than the limit. The collector is truncated just if a call was refused
since the last reset. It holds all warnings since then if they are shown and none if they are hidden.

A call is refused just if it comes to an error or a note when as many are recorded as the limit allows. What it recorded
before that stays, behind all that was there, and the rest of it is left out. A call that is not refused records all it
has to record but hidden warnings; a warning by itself is never refused. -/
theorem afterAll_books {limit : Int} (h : 0 ≤ limit) (shown : Bool) (calls : List Call) :
    let start : Diagnostics := { limit := limit, showWarnings := shown }
    let ds := Call.afterAll calls start
    (ds.errorCount = ds.entries.countP fun d => d.severity = .error) ∧
      ds.counted = ds.entries.countP counts ∧ (ds.counted : Int) ≤ limit ∧
      (ds.truncated = true ↔ RefusedSince start calls) ∧
      (ds.entries.filter (fun d => d.severity = .warning) =
        if shown then ((sinceReset calls).flatMap Call.diagnostics).filter fun d => d.severity = .warning else []) ∧
      Call.reset.after ds = start ∧
      ∀ c : Call,
        (c.Refused ds ↔ ∃ kept, Overflows ds c.diagnostics kept) ∧
        (∀ kept, Overflows ds c.diagnostics kept →
          c.perform ds = .error ⟨limit⟩ (c.after ds) ∧ (c.after ds).entries = ds.entries ++ kept) ∧
        (¬c.Refused ds → c.isReset = false →
          (c.after ds).entries = ds.entries ++ c.diagnostics.filter fun d => counts d || shown) ∧
        ∀ d, c = .record d → d.severity = .warning → ¬c.Refused ds := by
  intro start ds
  have hstart : Balanced start := ⟨rfl, rfl, h⟩
  obtain ⟨hbalanced, hlimit, hshown⟩ : Balanced ds ∧ ds.limit = limit ∧ ds.showWarnings = shown :=
    afterAll_balanced hstart calls
  have hwarning : (fun d : Diagnostic => !counts d) = fun d => decide (d.severity = .warning) := by
    funext d
    simp [counts]
  have hwarnings := warnings_afterAll hstart rfl calls
  rw [hwarning] at hwarnings
  refine ⟨hbalanced.errorCount, hbalanced.counted, hlimit ▸ hbalanced.counted_le, truncated_iff hstart rfl calls,
    hwarnings, ?_, fun c => ⟨hbalanced.refused_iff c, ?_, ?_, ?_⟩⟩
  · rw [Call.after_reset, Diagnostics.reset, hlimit, hshown]
  · intro kept hoverflows
    obtain ⟨hrefused, hafter⟩ := Call.perform_of_overflows hoverflows
    obtain ⟨d, rest, hlist, hd, -⟩ := hoverflows
    have hall : ∀ d' ∈ c.diagnostics, counts d' = true := Call.counts_of_mem (by simp [hlist]) hd
    refine ⟨hlimit ▸ hrefused, ?_⟩
    rw [hafter]
    exact append_entries fun d' hd' => hall d' (by simp [hlist, hd'])
  · intro hrefused hreset
    rcases hbalanced.cases c with hroom | hoverflows
    · rw [Call.after_of_room hreset hroom, append, hshown]
    · exact absurd ((hbalanced.refused_iff c).2 hoverflows) hrefused
  · rintro d rfl hseverity hrefused
    obtain ⟨kept, d', rest, hlist, hd', -⟩ := (hbalanced.refused_iff _).1 hrefused
    have hmem : d' ∈ [d] := by
      change [d] = kept ++ d' :: rest at hlist
      simp [hlist]
    rw [List.mem_singleton.1 hmem] at hd'
    simp [counts, hseverity] at hd'

/-- Under a limit of one, the note of a fault is refused and its error stays. -/
theorem afterAll_books_note :
    let fault : Fault := ⟨.stated .general "error" none [(none, "note")], none⟩
    let ds := Call.afterAll [.add fault] { limit := 1 }
    (0 : Int) ≤ 1 ∧ ds.entries = [⟨.error, "error", none⟩] ∧ ds.truncated = true ∧
      RefusedSince { limit := 1 } [.add fault] := by
  intro fault ds
  have hlimit : (0 : Int) ≤ 1 := by decide
  have htruncated : ds.truncated = true := by decide
  obtain ⟨-, -, -, hiff, -⟩ := afterAll_books hlimit true [.add fault]
  exact ⟨hlimit, by decide, htruncated, hiff.1 htruncated⟩

end AvmAssembler.Diagnostics
