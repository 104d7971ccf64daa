import AvmAssembler.Proofs.Source.Concatenation
import AvmAssembler.Proofs.Source.Inclusion
import AvmAssembler.Proofs.Source.Locality
import AvmAssembler.Proofs.Source.Units

/-! # What a unit consists of

A unit without faults falls into items. Each of them is a part of the unit: a statement of its own, or the statements of
the unit that is included there, which consists of parts itself. A unit is read with nothing recorded exactly if it
consists of parts in this way, and its statements are those of the parts.
-/

namespace AvmAssembler.Unit

/-- A part of a unit: a statement of its own, or the statements that take the place of an inclusion. -/
inductive Part where
  | own (statement : Statement)
  | included (statements : List Statement)

def Part.statements : Part → List Statement
  | own s => [s]
  | included ss => ss

/-- The part of a unit that stands elsewhere in its file. What is included stays where it is. -/
def Part.relocateOwn (f : Location → Location) : Part → Part
  | own s => own (s.relocate f)
  | included ss => included ss

def splice (parts : List Part) : List Statement :=
  parts.flatMap Part.statements

/-- The text is well formed to its end and falls into the items. -/
def FallsInto (file text : String) (is : List Grammar.Item) : Prop :=
  ∃ l, (tokenize file text).2 = .complete l ∧ Grammar.Itemizes (.complete l) (tokenize file text).1 is

/-- What the items of a file consist of while the files at some places are being read, itself among them. A file that is
being read is not included again. -/
inductive Compose (env : Surroundings) : List Place → String → List Grammar.Item → List Part → Prop
  | nil {active : List Place} {file : String} : Compose env active file [] []
  | statement {active : List Place} {file : String} {s : Statement} {is : List Grammar.Item} {parts : List Part} :
      Compose env active file is parts → Compose env active file (.statement s :: is) (.own s :: parts)
  | inclusion {active : List Place} {file path text : String} {keyword location : Location} {resolved : Path}
      {place : Place} {content : List UInt8} {is inner : List Grammar.Item} {parts innerParts : List Part} :
      sought? env file path = .ok (some (resolved, place, content)) → place ∉ active →
      FileTree.textOf content = .ok text → FallsInto resolved.written text inner →
      Compose env (active ++ [place]) resolved.written inner innerParts → Compose env active file is parts →
      Compose env active file (.inclusion keyword path location :: is) (.included (splice innerParts) :: parts)

/-- What the unit of a file consists of while the files at some places are being read. -/
def ConsistsOf (env : Surroundings) (active : List Place) (file text : String) (parts : List Part) : Prop :=
  ∃ is, FallsInto file text is ∧ Compose env active file is parts

/-! ## Parts one after another -/

theorem splice_own (s : Statement) (parts : List Part) : splice (.own s :: parts) = s :: splice parts := rfl

theorem splice_included (ss : List Statement) (parts : List Part) :
    splice (.included ss :: parts) = ss ++ splice parts := rfl

theorem splice_append (parts parts' : List Part) : splice (parts ++ parts') = splice parts ++ splice parts' :=
  List.flatMap_append

namespace Compose

variable {env : Surroundings} {active : List Place} {file : String} {is is' : List Grammar.Item}
  {parts parts' : List Part}

theorem append (h : Compose env active file is parts) (h' : Compose env active file is' parts') :
    Compose env active file (is ++ is') (parts ++ parts') := by
  induction h with
  | nil => exact h'
  | statement _ ih => exact .statement (ih h')
  | inclusion hsought hidle htext hitems hinner _ _ ih => exact .inclusion hsought hidle htext hitems hinner (ih h')

/-- Which file an inclusion means does not depend on where it stands. -/
theorem relocate (f : Location → Location) (h : Compose env active file is parts) :
    Compose env active file (is.map (Grammar.Item.relocate f)) (parts.map (Part.relocateOwn f)) := by
  induction h with
  | nil => exact .nil
  | statement _ ih => exact .statement ih
  | inclusion hsought hidle htext hitems hinner _ _ ih => exact .inclusion hsought hidle htext hitems hinner ih

end Compose

/-- Texts on lines of their own fall into the items of the first and then those of the second, so many lines further
down. -/
theorem FallsInto.append {file a b : String} {is is' : List Grammar.Item} (h : FallsInto file a is)
    (h' : FallsInto file b is') :
    FallsInto file (a ++ "\n" ++ b)
      (is ++ is'.map (Grammar.Item.relocate (Location.down ((a ++ "\n").toList.count '\n')))) := by
  obtain ⟨l, hl, hitems⟩ := h
  obtain ⟨l', hl', hitems'⟩ := h'
  have hstream := tokenize_append hl b
  have hbelow := hitems'.relocate (Location.down ((a ++ "\n").toList.count '\n'))
  simp only [relocateStream, hl'] at hstream
  refine ⟨_, congrArg Prod.snd hstream, ?_⟩
  rw [hstream]
  exact hitems.append hbelow

theorem ConsistsOf.append {env : Surroundings} {active : List Place} {file a b : String} {parts parts' : List Part}
    (h : ConsistsOf env active file a parts) (h' : ConsistsOf env active file b parts') :
    ConsistsOf env active file (a ++ "\n" ++ b)
      (parts ++ parts'.map (Part.relocateOwn (Location.down ((a ++ "\n").toList.count '\n')))) := by
  obtain ⟨is, hfalls, hparts⟩ := h
  obtain ⟨is', hfalls', hparts'⟩ := h'
  exact ⟨_, hfalls.append hfalls', hparts.append (hparts'.relocate _)⟩

/-! ## Reading a unit that consists of parts -/

variable {env : Surroundings} {file : String}

def Quietly {α : Type} (step : Reporting α) (x : α) : Prop :=
  ∀ j, ∃ k, step j = .ok x k ∧ k.diagnostics = j.diagnostics

theorem Quietly.bind {α β : Type} {step : Reporting α} {next : α → Reporting β} {x : α} {y : β} (h : Quietly step x)
    (hnext : Quietly (next x) y) : Quietly (step >>= next) y := by
  intro j
  obtain ⟨k, hk, hsame⟩ := h j
  obtain ⟨l, hl, hsame'⟩ := hnext k
  exact ⟨l, by rw [bind_of_ok hk, hl], hsame'.trans hsame⟩

theorem Quietly.pure {α : Type} (x : α) : Quietly (pure x) x :=
  fun j => ⟨j, rfl, rfl⟩

theorem note_quietly (e : Event) : Quietly (Journal.note e) () :=
  fun j => ⟨{ j with log := j.log ++ [e] }, rfl, rfl⟩

theorem read_quietly {active : List ActiveFile} {text : String} {l : Location} {ss : List Statement}
    (hending : (tokenize file text).2 = .complete l)
    (h : Quietly (items env active file (.complete l) (tokenize file text).1) ss) :
    Quietly (read env active file text) ss := by
  have hstart : Quietly (start file text) (tokenize file text) := by
    refine (note_quietly _).bind ?_
    split
    · rename_i hstream
      rw [hstream] at hending
      cases hending
    · exact .pure _
  rw [read]
  refine hstart.bind ?_
  dsimp only
  rw [hending]
  exact h.bind ((note_quietly _).bind (.pure _))

theorem Compose.items_quietly {places : List Place} {is : List Grammar.Item} {parts : List Part}
    (h : Compose env places file is parts) : ∀ {active : List ActiveFile} {ending : Ending} {tokens : List Token},
    active.map ActiveFile.place = places → Grammar.Itemizes ending tokens is →
    Quietly (items env active file ending tokens) (splice parts) := by
  induction h with
  | nil =>
    intro active ending tokens _ hitems
    cases hitems
    rw [items]
    exact .pure []
  | statement _ ih =>
    intro active ending tokens hactive hitems
    cases hitems with
    | cons hitem hrest =>
      rw [items_of_statement hitem]
      exact (ih hactive hrest).bind (.pure _)
  | @inclusion places file path text keyword location resolved place content is inner parts innerParts hsought hidle
      htext hinner _ _ ihinner ih =>
    intro active ending tokens hactive hitems
    obtain ⟨l, hending, hinneritems⟩ := hinner
    cases hitems with
    | cons hitem hrest =>
      obtain ⟨i, hopen, rfl, rfl, rfl⟩ := exists_open?_eq_ok (l := location) hsought (hactive ▸ hidle) htext
      have hdeeper : (active ++ [ActiveFile.mk i.place (some location)]).map ActiveFile.place =
          places ++ [i.place] := by simp [hactive]
      rw [items_of_inclusion hitem, enter, hopen]
      refine (note_quietly _).bind ?_
      refine (read_quietly hending (ihinner hdeeper hinneritems)).bind ?_
      exact (ih hactive hrest).bind (.pure _)

/-! ## What a unit consists of that was read -/

abbrev SameCount (j k : Journal) : Prop := k.diagnostics.entries.length = j.diagnostics.entries.length

theorem length_le_of_read {active : List ActiveFile} {text : String} {ss : List Statement} {j k : Journal}
    (h : read env active file text j = .ok ss k) :
    j.diagnostics.entries.length ≤ k.diagnostics.entries.length :=
  ((read_escalates (fun _ _ _ => admits_true _ _) active file text (admits_true file _) j).at_ok h).length_le

theorem length_le_of_items {active : List ActiveFile} {ending : Ending} {tokens : List Token} {ss : List Statement}
    {j k : Journal} (hregular : Grammar.Regular tokens) (h : items env active file ending tokens j = .ok ss k) :
    j.diagnostics.entries.length ≤ k.diagnostics.entries.length :=
  ((items_escalates (fun _ _ _ => admits_true _ _) active file ending tokens hregular (admits_true file tokens)
    j).at_ok h).length_le

/-- If an inclusion and what follows it give statements, so do the file and what follows. -/
theorem enter_eq_ok {active : List ActiveFile} {path : String} {keyword location : Location}
    {onward : Reporting (List Statement)} {ss : List Statement} {j k : Journal}
    (h : enter env active file path keyword location onward j = .ok ss k) :
    ∃ i inner more m, open? env file active path location = .ok i ∧
      read env (active ++ [⟨i.place, some location⟩]) i.path.written i.text
        { j with log := j.log ++ [.including i.path.written keyword] } = .ok inner m ∧
      onward m = .ok more k ∧ ss = inner ++ more := by
  unfold enter at h
  cases hopen : open? env file active path location with
  | error obstacle =>
    rw [hopen] at h
    exact (giveUp_ne_ok h).elim
  | ok i =>
    rw [hopen] at h
    obtain ⟨_, l, hnote, h⟩ := exists_of_bind_eq_ok h
    cases hnote
    obtain ⟨inner, m, hinner, h⟩ := exists_of_bind_eq_ok h
    obtain ⟨more, n, hmore, hpure⟩ := exists_of_bind_eq_ok h
    cases hpure
    exact ⟨i, inner, more, m, rfl, hinner, hmore, rfl⟩

mutual

/-- A unit in which nothing is recorded consists of parts, and its statements are theirs. -/
theorem consistsOf_of_read (active : List ActiveFile) (file text : String) {ss : List Statement} {j k : Journal}
    (h : read env active file text j = .ok ss k) (hsame : SameCount j k) :
    ∃ parts, ConsistsOf env (active.map ActiveFile.place) file text parts ∧ ss = splice parts := by
  rw [read] at h
  obtain ⟨stream, m, hstart, h⟩ := exists_of_bind_eq_ok h
  obtain ⟨rfl, hempty, hunchanged⟩ := (start_leads (N := fun _ => True) file text j).at_ok hstart
  obtain ⟨ss', n, hitems, h⟩ := exists_of_bind_eq_ok h
  cases h
  have hsame' : SameCount m n := by
    rw [SameCount, hunchanged]
    exact hsame
  obtain ⟨is, parts, hfalls, hparts, rfl, hending⟩ :=
    compose_of_items active file (tokenize file text).2 _ (tokenize_isRegular file text) hitems hsame'
  obtain ⟨l, hl⟩ : (tokenize file text).2.IsComplete := by
    by_cases hnil : (tokenize file text).1 = []
    · exact hempty hnil
    · exact hending hnil
  exact ⟨parts, ⟨is, ⟨l, hl, hl ▸ hfalls⟩, hparts⟩, rfl⟩
termination_by ((idlePlaces env.tree active).length, 1, 0)

theorem compose_of_items (active : List ActiveFile) (file : String) (ending : Ending) (tokens : List Token)
    (hregular : Grammar.Regular tokens) {ss : List Statement} {j k : Journal}
    (h : items env active file ending tokens j = .ok ss k) (hsame : SameCount j k) :
    ∃ is parts, Grammar.Itemizes ending tokens is ∧ Compose env (active.map ActiveFile.place) file is parts ∧
      ss = splice parts ∧ (tokens ≠ [] → ending.IsComplete) := by
  match tokens with
  | [] =>
    rw [items] at h
    cases h
    exact ⟨[], [], .nil, .nil, rfl, fun hne => absurd rfl hne⟩
  | t :: tail =>
    obtain ⟨i, rest, hitem⟩ := exists_item_of_clean hregular h hsame
    have hmeets := Grammar.item_meets ending t tail hregular
    have hwithin := (Grammar.item ending t tail).property
    rw [hitem] at hmeets hwithin
    have hshorter : rest.length < (t :: tail).length := hwithin
    obtain ⟨used, heq, -, hend⟩ := hmeets
    have hregular' : Grammar.Regular rest := hregular.right heq
    have hcomplete : (rest ≠ [] → ending.IsComplete) → ending.IsComplete := fun hrest => by
      by_cases hnil : rest = []
      · exact hend hnil
      · exact hrest hnil
    cases i with
    | statement s =>
      rw [items_of_statement hitem] at h
      obtain ⟨more, l, hmore, hpure⟩ := exists_of_bind_eq_ok h
      cases hpure
      obtain ⟨is, parts, hfalls, hparts, rfl, hending⟩ := compose_of_items active file ending rest hregular' hmore hsame
      exact ⟨_, _, .cons hitem hfalls, .statement hparts, rfl, fun _ => hcomplete hending⟩
    | inclusion keyword path location =>
      rw [items_of_inclusion hitem] at h
      obtain ⟨i, inner, more, m, hopen, hinner, hmore, rfl⟩ := enter_eq_ok h
      -- What is included and what follows record nothing either.
      have hgrown := length_le_of_read hinner
      have hgrown' := length_le_of_items hregular' hmore
      obtain ⟨innerParts, ⟨innerItems, hinnerFalls, hinnerParts⟩, rfl⟩ :=
        consistsOf_of_read _ _ _ hinner (Nat.le_antisymm (hsame ▸ hgrown') hgrown)
      obtain ⟨is, parts, hfalls, hparts, rfl, hending⟩ :=
        compose_of_items active file ending rest hregular' hmore (Nat.le_antisymm (hsame ▸ hgrown) hgrown')
      obtain ⟨content, hsought, hidle, htext⟩ := open?_eq_ok_sought hopen
      rw [List.map_append] at hinnerParts
      exact ⟨_, _, .cons hitem hfalls, .inclusion hsought hidle htext hinnerFalls hinnerParts hparts, rfl,
        fun _ => hcomplete hending⟩
termination_by ((idlePlaces env.tree active).length, 0, tokens.length)
decreasing_by
  all_goals first
    | exact Prod.Lex.left _ _ (idlePlaces_length_lt _ _)
    | decreasing_tactic

end

end AvmAssembler.Unit

namespace AvmAssembler.Program

open AvmAssembler.Unit

variable {env : Surroundings} {file text : String}

/-- A program in which nothing is recorded consists of parts. -/
theorem consistsOf_of_read {p : Program} {j k : Journal} (h : Program.read env file text j = .ok p k)
    (hentries : k.diagnostics.entries = j.diagnostics.entries) :
    ∃ active parts, initiallyActive env file = .ok active ∧
      ConsistsOf env (active.map ActiveFile.place) file text parts ∧ p = ⟨splice parts, file⟩ := by
  obtain ⟨active, ss, hactive, hread, rfl⟩ := exists_of_read_eq_ok h
  obtain ⟨parts, hparts, rfl⟩ := Unit.consistsOf_of_read _ file text hread (congrArg List.length hentries)
  exact ⟨active, parts, hactive, hparts, rfl⟩

/-- What consists of parts is read as the program of their statements, and nothing is recorded. -/
theorem read_of_consistsOf {active : List ActiveFile} (hactive : initiallyActive env file = .ok active)
    {parts : List Part} (h : ConsistsOf env (active.map ActiveFile.place) file text parts) :
    Quietly (Program.read env file text) ⟨splice parts, file⟩ := by
  obtain ⟨is, ⟨l, hl, hitems⟩, hparts⟩ := h
  rw [Program.read_of_active hactive]
  exact (read_quietly hl (hparts.items_quietly rfl hitems)).bind (.pure _)

end AvmAssembler.Program
