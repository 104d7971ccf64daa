import AvmAssembler.Proofs.Files.Naming
import AvmAssembler.Proofs.Reports
import AvmAssembler.Proofs.Source.Completeness
import AvmAssembler.Proofs.Source.Inclusion
import AvmAssembler.Proofs.Source.Soundness
import AvmAssembler.Source.Unit

/-! # What reading a unit records

Reading ends with statements or stops. All that it records are faults of the text and of inclusions, and apart from the
limit of diagnostics and a fatal fault, only a numeral without a value stops it, or a search for a file that is cut
short. A unit without inclusions in which nothing is recorded consists of its statements, token by token.
-/

namespace AvmAssembler

open Diagnostics

/-- The report is of a fault of the text or of an inclusion. -/
def Report.IsOfReading : Report → Prop
  | .fault f => f.IsSyntactic ∨ ∃ path failure notes searched, f.cause = .inclusion path failure notes searched
  | _ => False

def FileTree.HasText (tree : FileTree) (text : String) : Prop :=
  ∃ place content x, tree.entryAt place = some (.file content x) ∧ FileTree.textOf content = .ok text

namespace Unit

variable {env : Surroundings} {active : List ActiveFile} {file : String} {N : Abort → Prop}
  {U : String → String → Prop}

theorem open?_eq_ok {path : String} {location : Location} {inclusion : Inclusion env.tree active}
    (h : open? env file active path location = .ok inclusion) : env.tree.HasText inclusion.text := by
  obtain ⟨content, hsought, -, htext⟩ := open?_eq_ok_sought h
  obtain ⟨-, x, htarget⟩ := sought?_eq_some.1 hsought
  exact ⟨inclusion.place, content, x, FileTree.entryAt_of_target htarget, htext⟩

theorem open?_eq_fault {path : String} {location : Location} {fault : Fault}
    (h : open? env file active path location = .error (.fault fault)) :
    fault.isFatal = true ∧ (Report.fault fault).IsOfReading := by
  have hfault : ∀ failure notes searched, fault = inclusionFault path location failure notes searched →
      fault.isFatal = true ∧ (Report.fault fault).IsOfReading := by
    rintro failure notes searched rfl
    exact ⟨rfl, .inr ⟨_, _, _, _, rfl⟩⟩
  rw [open?_eq_error_iff] at h
  unfold opened at h
  repeat' split at h
  all_goals cases h
  all_goals exact hfault _ _ _ rfl

/-- Reading starts with the tokens of the text, unless there is none because the text is malformed. -/
theorem start_leads (file text : String) (j : Journal) :
    Leads (start file text) j
      (fun stream k => stream = tokenize file text ∧ (stream.1 = [] → stream.2.IsComplete) ∧
        k.diagnostics = j.diagnostics)
      (fun e k => Last Report.IsOfReading N j.diagnostics k.diagnostics e) := by
  unfold start
  refine Leads.of_ok_bind (x := ()) (t := { j with log := j.log ++ [.parsing file] }) rfl ?_
  split
  · exact (Journal.stop_leads rfl (.inl trivial) _).mono (fun _ _ h => h.elim) fun _ _ h => h
  · rename_i hstream
    refine Leads.of_pure ⟨rfl, fun hnil => ?_, rfl⟩
    generalize tokenize file text = stream at *
    obtain ⟨tokens, ending⟩ := stream
    cases ending with
    | complete l => exact ⟨l, rfl⟩
    | malformed f l => exact (hstream f l (by simpa using hnil)).elim

/-- Behind a fault, reading records what it does behind the token there, or a fault of the text ends it. -/
theorem resume_escalates {ending : Ending} {rest : List Token} {j : Journal}
    (h : ∀ u after, rest = u :: after →
      Escalates Journal.diagnostics Report.IsOfReading N (items env active file ending after) j) :
    Escalates Journal.diagnostics Report.IsOfReading N (resume env active file ending rest) j := by
  cases rest with
  | nil => exact Escalates.pure []
  | cons u after =>
    rw [resume]
    split
    · rename_i htaken
      obtain ⟨hfatal, hfault⟩ := Grammar.take_fault htaken
      exact Journal.stop_escalates hfatal (.inl hfault) j
    · exact h u after rfl

/-- Some of the tokens, in succession, are an inclusion. -/
def HasInclusion (tokens : List Token) (path : String) : Prop :=
  [.keyword .inclusion, .string path] <:+: tokens.map Token.terminal

/-- Some of the tokens, in succession, are an embedding. -/
def HasEmbedding (tokens : List Token) (path : String) : Prop :=
  ∃ name, [.keyword .embedding, .name name, .string path] <:+: tokens.map Token.terminal

theorem HasInclusion.of_item {ending : Ending} {t : Token} {tail rest : List Token} {keyword l : Location}
    {path : String} (hregular : Grammar.Regular (t :: tail))
    (h : (Grammar.item ending t tail).val = .read (.inclusion keyword path l) rest) :
    HasInclusion (t :: tail) path := by
  have hmeets := Grammar.item_meets ending t tail hregular
  rw [h] at hmeets
  obtain ⟨used, heq, hused, -⟩ := hmeets
  rw [HasInclusion, heq, List.map_append, ← (show used.map Token.terminal = _ from hused)]
  exact (List.prefix_append _ _).isInfix

/-- The units that reading a text may come to, by name and text. -/
inductive InReach (env : Surroundings) (file text : String) : String → String → Prop
  | self : InReach env file text file text
  | inclusion {name source path included : String} {r : Path} {place : Place} {content : List UInt8} :
      InReach env file text name source → HasInclusion (tokenize name source).1 path →
      sought? env name path = .ok (some (r, place, content)) → FileTree.textOf content = .ok included →
      InReach env file text r.written included

/-- What tokens of a unit may stop reading with is admitted, and so is each unit that they include. -/
structure Admits (env : Surroundings) (N : Abort → Prop) (U : String → String → Prop) (name : String)
    (tokens : List Token) : Prop where
  numeral : ∀ t ∈ tokens, ∀ e, t.FailsWith e → N (.numeral e)
  search : ∀ path, HasInclusion tokens path → ∀ e, env.tree.find? path name env.searchPaths = .error e → N (.search e)
  unit : ∀ path, HasInclusion tokens path → ∀ r place content text,
    sought? env name path = .ok (some (r, place, content)) → FileTree.textOf content = .ok text → U r.written text

theorem Admits.mono {name : String} {tokens others : List Token}
    (h : Admits env N U name tokens) (hothers : others <:+: tokens) : Admits env N U name others where
  numeral t ht := h.numeral t (hothers.mem ht)
  search path hpath := h.search path (hpath.trans (hothers.map _))
  unit path hpath := h.unit path (hpath.trans (hothers.map _))

theorem admits_true (name : String) (tokens : List Token) :
    Admits env (fun _ => True) (fun _ _ => True) name tokens :=
  ⟨fun _ _ _ _ => trivial, fun _ _ _ _ => trivial, fun _ _ _ _ _ _ _ _ => trivial⟩

mutual

/-- However reading ends, it records faults of the text and of inclusions, a fatal one at most as the last; and if a
numeral or a search ends it, it is admitted. -/
theorem read_escalates (hunits : ∀ name source, U name source → Admits env N U name (tokenize name source).1)
    (active : List ActiveFile) (file text : String) (hunit : Admits env N U file (tokenize file text).1) (j : Journal) :
    Escalates Journal.diagnostics Report.IsOfReading N (read env active file text) j := by
  rw [read]
  refine Leads.of_bind (start_leads file text j) ?_ fun _ _ h => h.ended
  rintro stream k ⟨rfl, -, hsame⟩
  rw [← hsame]
  refine Escalates.bind (items_escalates hunits active file _ _ (tokenize_isRegular file text) hunit k) fun ss l => ?_
  exact Escalates.bind (Journal.note_escalates _ l) fun _ _ => Escalates.pure ss
termination_by ((idlePlaces env.tree active).length, 1, 0)

theorem items_escalates (hunits : ∀ name source, U name source → Admits env N U name (tokenize name source).1)
    (active : List ActiveFile) (file : String) (ending : Ending) (tokens : List Token)
    (hregular : Grammar.Regular tokens) (htokens : Admits env N U file tokens) (j : Journal) :
    Escalates Journal.diagnostics Report.IsOfReading N (items env active file ending tokens) j := by
  match tokens with
  | [] =>
    rw [items]
    exact Escalates.pure []
  | t :: tail =>
    have hmeets := Grammar.item_meets ending t tail hregular
    have hwithin := (Grammar.item ending t tail).property
    cases hitem : (Grammar.item ending t tail).val with
    | read i rest =>
      rw [hitem] at hmeets hwithin
      have hshorter : rest.length < (t :: tail).length := hwithin
      obtain ⟨used, heq, hused, -⟩ := hmeets
      have hrest : Admits env N U file rest := htokens.mono (heq ▸ (List.suffix_append used rest).isInfix)
      have hitems := items_escalates hunits active file ending rest (hregular.right heq) hrest
      cases i with
      | statement s =>
        rw [items_of_statement hitem]
        exact Escalates.bind (hitems j) fun _ _ => Escalates.pure _
      | inclusion keyword path location =>
        have hinclusion := HasInclusion.of_item hregular hitem
        rw [items_of_inclusion hitem, enter]
        split
        · rename_i obstacle hopen
          refine Journal.giveUp_escalates ?_ ?_ j
          · rintro fault rfl
            exact open?_eq_fault hopen
          · rintro e rfl
            exact htokens.search path hinclusion e (open?_eq_search_iff.1 hopen)
        · rename_i inclusion hopen
          obtain ⟨content, hsought, -, htext⟩ := open?_eq_ok_sought hopen
          have hunit := hunits _ _ (htokens.unit path hinclusion _ _ _ _ hsought htext)
          refine Escalates.bind (Journal.note_escalates _ j) fun _ k => ?_
          refine Escalates.bind (read_escalates hunits _ _ _ hunit k) fun _ l => ?_
          exact Escalates.bind (hitems l) fun _ _ => Escalates.pure _
    | refused fault rest =>
      rw [hitem] at hmeets hwithin
      obtain ⟨hsuffix, hfault⟩ := hmeets
      rw [items_of_refusal hitem]
      split
      · rename_i hfatal
        exact Journal.stop_escalates hfatal (.inl hfault) j
      · rename_i hfatal
        refine Escalates.bind (Journal.report_escalates (by simpa using hfatal) (.inl hfault) j) fun _ k => ?_
        refine resume_escalates fun u after hrest => ?_
        subst hrest
        have hshorter : after.length < (t :: tail).length := hwithin
        have hafter : after <:+ t :: tail := (List.suffix_cons u after).trans hsuffix
        exact items_escalates hunits active file ending after (fun v hv => hregular v (hafter.mem hv))
          (htokens.mono hafter.isInfix) k
    | unreadable e =>
      rw [hitem] at hmeets
      obtain ⟨u, hu, he⟩ := hmeets
      rw [items_of_unreadable hitem]
      exact Leads.of_throw ⟨_, .refl _, htokens.numeral u hu e he, rfl⟩
termination_by ((idlePlaces env.tree active).length, 0, tokens.length)
decreasing_by
  all_goals first
    | exact Prod.Lex.left _ _ (idlePlaces_length_lt _ _)
    | decreasing_tactic

end

/-- Once a fault is recorded, there is a diagnostic more at the end. -/
theorem length_lt_of_report {fault : Fault} {j k l : Journal} {P : Report → Prop} {x : Unit}
    (hreport : Journal.report fault j = .ok x k) (hrest : GrownBy P k.diagnostics l.diagnostics) :
    j.diagnostics.entries.length < l.diagnostics.entries.length := by
  have hgrown : Grown [.fault fault] j.diagnostics k.diagnostics :=
    (Journal.report_leads (P := fun _ => True) (N := fun _ => True) trivial j).at_ok hreport
  exact Nat.lt_of_lt_of_le hgrown.length_lt hrest.length_le

theorem stop_ne_ok {α : Type} {fault : Fault} {x : α} {j k : Journal} :
    (Journal.stop fault : Reporting α) j ≠ .ok x k := by
  intro h
  obtain ⟨_, _, _, hthrow⟩ := exists_of_bind_eq_ok h
  cases hthrow

theorem giveUp_ne_ok {α : Type} {obstacle : Obstacle} {x : α} {j k : Journal} :
    (Journal.giveUp obstacle : Reporting α) j ≠ .ok x k := by
  cases obstacle with
  | fault fault => exact stop_ne_ok
  | search e => exact fun h => by cases h

theorem exists_item_of_clean {ending : Ending} {t : Token} {tail : List Token} {j k : Journal} {ss : List Statement}
    (hregular : Grammar.Regular (t :: tail)) (h : items env active file ending (t :: tail) j = .ok ss k)
    (hentries : k.diagnostics.entries.length = j.diagnostics.entries.length) :
    ∃ i rest, (Grammar.item ending t tail).val = .read i rest := by
  have hmeets := Grammar.item_meets ending t tail hregular
  cases hitem : (Grammar.item ending t tail).val with
  | read i rest => exact ⟨i, rest, rfl⟩
  | refused fault rest =>
    rw [hitem] at hmeets
    obtain ⟨hsuffix, hfault⟩ := hmeets
    rw [items_of_refusal hitem] at h
    split at h
    · exact (stop_ne_ok h).elim
    · obtain ⟨_, l, hreport, hrest⟩ := exists_of_bind_eq_ok h
      -- Something has been recorded, whatever follows.
      have hrecords : Escalates Journal.diagnostics Report.IsOfReading (fun _ => True)
          (resume env active file ending rest) l := by
        refine resume_escalates fun u after hrest => ?_
        subst hrest
        have hafter : after <:+ t :: tail := (List.suffix_cons u after).trans hsuffix
        exact items_escalates (fun _ _ _ => admits_true _ _) active file ending after
          (fun v hv => hregular v (hafter.mem hv)) (admits_true file after) l
      have hlt := length_lt_of_report hreport (hrecords.at_ok hrest)
      omega
  | unreadable e =>
    rw [items_of_unreadable hitem] at h
    cases h

/-- Where nothing is included and nothing is recorded, the tokens are those of the statements. -/
theorem items_yield {ending : Ending} : ∀ {tokens : List Token} {j k : Journal} {ss : List Statement},
    Grammar.Regular tokens → (∀ t ∈ tokens, t.kind ≠ .keyword .inclusion) →
    items env active file ending tokens j = .ok ss k → k.diagnostics.entries.length = j.diagnostics.entries.length →
    Statement.YieldAll ss (tokens.map Token.terminal) ∧ (tokens ≠ [] → ending.IsComplete)
  | [], j, k, ss, _, _, h, _ => by
    rw [items] at h
    cases h
    exact ⟨rfl, fun h => absurd rfl h⟩
  | t :: tail, j, k, ss, hregular, hplain, h, hentries => by
    obtain ⟨i, rest, hitem⟩ := exists_item_of_clean hregular h hentries
    have hmeets := Grammar.item_meets ending t tail hregular
    have hshorter := (Grammar.item ending t tail).property
    rw [hitem] at hmeets hshorter
    obtain ⟨used, heq, hused, hend⟩ := hmeets
    cases i with
    | statement s =>
      have hlt : rest.length < (t :: tail).length := hshorter
      have hplain' : ∀ u ∈ rest, u.kind ≠ .keyword .inclusion :=
        fun u hu => hplain u (heq ▸ List.mem_append_right used hu)
      rw [items_of_statement hitem] at h
      obtain ⟨more, l, hmore, hpure⟩ := exists_of_bind_eq_ok h
      cases hpure
      obtain ⟨hyields, hending⟩ := items_yield (hregular.right heq) hplain' hmore hentries
      refine ⟨⟨_, _, hused, hyields, by rw [heq, List.map_append]⟩, fun _ => ?_⟩
      by_cases hnil : rest = []
      · exact hend hnil
      · exact hending hnil
    | inclusion keyword path location =>
      have hkeyword : Terminal.keyword .inclusion ∈ used.map Token.terminal := by
        rw [show used.map Token.terminal = _ from hused]
        simp
      obtain ⟨u, hu, hu'⟩ := List.mem_map.1 hkeyword
      exact absurd (congrArg Terminal.kind hu') (hplain u (heq ▸ List.mem_append_left rest hu))
termination_by tokens => tokens.length
decreasing_by exact hlt

end Unit

namespace Program

variable {env : Surroundings} {file text : String}

def HasUnreadable (env : Surroundings) (file text : String) : Prop :=
  ∃ name source, Unit.InReach env file text name source ∧ ∃ t ∈ (tokenize name source).1, t.IsUnreadable

/-- The search for the source itself is cut short, or that for a file which a unit within reach includes or embeds. -/
def HasUnsearchable (env : Surroundings) (file text : String) (e : SearchError) : Prop :=
  Unit.initiallyActive env file = .error e ∨
    ∃ name source path, Unit.InReach env file text name source ∧
      (Unit.HasInclusion (tokenize name source).1 path ∨ Unit.HasEmbedding (tokenize name source).1 path) ∧
      env.tree.find? path name env.searchPaths = .error e

theorem HasUnsearchable.error_eq {e : SearchError} (h : HasUnsearchable env file text e) :
    e.error = .nameTooLong ∨ e.error = .accessDenied := by
  rcases h with hself | ⟨name, source, path, -, -, hfind⟩
  · exact (FileTree.place?_eq_error.1 (Unit.initiallyActive_eq_error.1 hself).2).2.2
  · exact (FileTree.place?_eq_error.1 (FileTree.find?_eq_error hfind).2).2.2

/-- What stops reading without being recorded. -/
def Unreadable (env : Surroundings) (file text : String) : Abort → Prop
  | .numeral _ => HasUnreadable env file text
  | .search e => HasUnsearchable env file text e
  | _ => False

theorem admits_of_inReach {name source : String} (h : Unit.InReach env file text name source) :
    Unit.Admits env (Unreadable env file text) (Unit.InReach env file text) name (tokenize name source).1 where
  numeral t ht _ he := ⟨name, source, h, t, ht, (tokenize_isRegular name source t ht).isUnreadable he⟩
  search path hpath _ he := .inr ⟨name, source, path, h, .inl hpath, he⟩
  unit _ hpath _ _ _ _ hsought htext := .inclusion h hpath hsought htext

theorem read_escalates (env : Surroundings) (file text : String) (j : Journal) :
    Escalates Journal.diagnostics Report.IsOfReading (Unreadable env file text) (Program.read env file text) j := by
  cases hactive : Unit.initiallyActive env file with
  | error e =>
    rw [Program.read_of_search hactive]
    exact Leads.of_throw ⟨_, .refl _, .inl hactive, rfl⟩
  | ok active =>
    rw [Program.read_of_active hactive]
    exact Escalates.bind (Unit.read_escalates (fun _ _ => admits_of_inReach) _ file text (admits_of_inReach .self) j)
      fun _ _ => Escalates.pure _

theorem read_records (env : Surroundings) (file text : String) (j : Journal) :
    Records Journal.diagnostics Report.IsOfReading (Unreadable env file text) (Program.read env file text) j :=
  (read_escalates env file text j).records

/-- If the text has no inclusion and nothing is recorded, the text is well formed to its end, the statements yield
exactly its tokens, and every integer token denotes the number that it writes in its base. -/
theorem yieldAll_of_read {p : Program} {j k : Journal} (h : Program.read env file text j = .ok p k)
    (hentries : k.diagnostics.entries = j.diagnostics.entries)
    (hplain : ∀ t ∈ (tokenize file text).1, t.kind ≠ .keyword .inclusion) :
    (∃ l, (tokenize file text).2 = .complete l) ∧
      Statement.YieldAll p.statements ((tokenize file text).1.map Token.terminal) ∧
      ∀ t ∈ (tokenize file text).1, ∀ radix v, t.kind = .integer radix → t.terminal.Denotes v →
        radix.Writes t.text.toList v := by
  have hregular := tokenize_isRegular file text
  suffices hunit : (∃ l, (tokenize file text).2 = .complete l) ∧
      Statement.YieldAll p.statements ((tokenize file text).1.map Token.terminal) by
    exact ⟨hunit.1, hunit.2, fun t ht radix v hkind hv => (hregular t ht).writes hkind hv⟩
  obtain ⟨active, ss, l, hread, rfl⟩ := exists_of_read_eq_ok h
  rw [Unit.read] at hread
  obtain ⟨stream, m, hstart, hread⟩ := exists_of_bind_eq_ok hread
  obtain ⟨rfl, hempty, hsame⟩ := (Unit.start_leads (N := fun _ => True) file text j).at_ok hstart
  obtain ⟨ss', n, hitems, hread⟩ := exists_of_bind_eq_ok hread
  cases hread
  have hlength : n.diagnostics.entries.length = m.diagnostics.entries.length := by rw [hsame, ← hentries]
  obtain ⟨hyields, hending⟩ := Unit.items_yield hregular hplain hitems hlength
  refine ⟨?_, hyields⟩
  by_cases hnil : (tokenize file text).1 = []
  · exact hempty hnil
  · exact hending hnil

/-- A push without its mnemonic, a fill and a character. -/
theorem yieldAll_of_read_push :
    let text := "-3 let n byte = 2 .. 0x10 psh 'a'"
    ∃ p k, Program.read ⟨{}, []⟩ "main" text {} = .ok p k ∧ k.diagnostics.entries = [] ∧
      (∀ t ∈ (tokenize "main" text).1, t.kind ≠ .keyword .inclusion) ∧
      (∃ l, (tokenize "main" text).2 = .complete l) ∧
      Statement.YieldAll p.statements ((tokenize "main" text).1.map Token.terminal) ∧
      ∀ t ∈ (tokenize "main" text).1, ∀ radix v, t.kind = .integer radix → t.terminal.Denotes v →
        radix.Writes t.text.toList v := by
  intro text
  let spelled : List (Terminal × String) :=
    [(⟨.integer .decimal, "-3"⟩, "-3"), (.keyword .declareVariable, "let"), (.name "n", "n"), (.type .byte, "byte"),
      (.equals, "="), (⟨.integer .decimal, "2"⟩, "2"), (.fill, ".."), (⟨.integer .hexadecimal, "0x10"⟩, "0x10"),
      (.name "psh", "psh"), (⟨.character, "a"⟩, "'a'")]
  have hspells : Spells text.toList (spelled.map Prod.fst) :=
    spells_intercalate Prod.fst Prod.snd spelled (by decide +kernel)
  have hyields : Statement.YieldAll
      [.instruction none "psh" (some (.integer none (-3))),
        .region none "n" .byte [.fill none (.integer none 2) (.integer none 16)],
        .instruction none "psh" (some (.integer none 97))] (spelled.map Prod.fst) := by
    have hthree : Terminal.Denotes ⟨.integer .decimal, "-3"⟩ (-3) := ⟨by decide +kernel, by decide, by decide⟩
    have htwo : Terminal.Denotes ⟨.integer .decimal, "2"⟩ 2 := ⟨by decide +kernel, by decide, by decide⟩
    have hsixteen : Terminal.Denotes ⟨.integer .hexadecimal, "0x10"⟩ 16 := ⟨by decide +kernel, by decide, by decide⟩
    have hletter : Terminal.Denotes ⟨.character, "a"⟩ 97 := ⟨'a', rfl, rfl⟩
    have hname : InstructionSet.isMnemonic "n" = false := by decide +kernel
    have hpush : InstructionSet.byName? "psh" = some ⟨"psh", 0x10, true⟩ := by decide +kernel
    refine ⟨_, _, .inr ⟨rfl, ⟨_, hthree, rfl⟩, by simp⟩, ?_, rfl⟩
    refine ⟨_, _, ⟨_, hname, ⟨_, _, ⟨_, htwo, rfl⟩, ⟨_, hsixteen, rfl⟩, rfl⟩, rfl⟩, ?_, rfl⟩
    exact ⟨_, _, .inl ⟨_, _, hpush, rfl, ⟨_, hletter, rfl⟩, rfl⟩, rfl, rfl⟩
  have hstart : Unit.CanStart ⟨{}, []⟩ "main" := ⟨[], rfl⟩
  obtain ⟨ss, -, hread⟩ := Program.read_of_yieldAll hstart hspells hyields
  have hplain : ∀ t ∈ (tokenize "main" text).1, t.kind ≠ .keyword .inclusion := by
    obtain ⟨tokens, l, htokens, hterminals⟩ := tokenize_of_spells hspells "main"
    have hkinds : ∀ u ∈ spelled.map Prod.fst, u.kind ≠ .keyword .inclusion := by decide +kernel
    rw [htokens]
    intro t ht
    exact hkinds t.terminal (hterminals ▸ List.mem_map_of_mem ht)
  exact ⟨_, _, hread {}, rfl, hplain, yieldAll_of_read (hread {}) rfl hplain⟩

end Program

end AvmAssembler
