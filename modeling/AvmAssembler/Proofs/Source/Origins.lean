import AvmAssembler.Proofs.Source.Units
import AvmAssembler.Proofs.Source.Wording

/-! # Where the statements of a program come from

Whatever is given up on the way, recorded or included, each statement that is kept is one of a unit within reach: it
yields tokens of that unit and stands where they start.
-/

namespace AvmAssembler

/-! ## Where a statement stands -/

/-- A value that is read has the property. -/
def Outcome.Gives {α : Type} (P : α → Prop) (o : Outcome α) : Prop :=
  ∀ a rest, o = .read a rest → P a

namespace Phrase

variable {α β : Type} {tokens : List Token} {P : α → Prop} {Q : β → Prop}

theorem map_gives {p : Phrase α tokens} {f : α → β} (h : p.val.Gives P) (hf : ∀ a, P a → Q (f a)) :
    (p.map f).val.Gives Q := by
  obtain ⟨o, ho⟩ := p
  cases o with
  | read a rest =>
    rintro _ _ ⟨⟩
    exact hf a (h a rest rfl)
  | refused | unreadable => rintro _ _ ⟨⟩

theorem bind_gives {p : Phrase α tokens} {f : α → (rest : List Token) → rest.length < tokens.length → Phrase β rest}
    (hf : ∀ a rest hlt, (f a rest hlt).val.Gives Q) : (p.bind f).val.Gives Q := by
  obtain ⟨o, ho⟩ := p
  cases o with
  | read a rest => exact hf a rest ho
  | refused | unreadable => rintro _ _ ⟨⟩

theorem gives_true (p : Phrase α tokens) : p.val.Gives fun _ => True :=
  fun _ _ _ => trivial

end Phrase

namespace Grammar

theorem take_gives (ending : Ending) (t : Token) (rest : List Token) : (take ending t rest).val.Gives (· = t) := by
  unfold take
  split
  · rintro _ _ ⟨⟩
  · rintro _ _ ⟨⟩
    rfl

theorem item_location (ending : Ending) (t : Token) (rest : List Token) :
    (item ending t rest).val.Gives fun i => ∀ s, i = .statement s → s.location = some t.location := by
  have hsingle : ∀ {f : Token → Statement}, (∀ u, (f u).location = some u.location) →
      ((take ending t rest).map fun u => Item.statement (f u)).val.Gives
        fun i => ∀ s, i = .statement s → s.location = some t.location := by
    refine fun hf => Phrase.map_gives (take_gives ending t rest) ?_
    rintro _ rfl _ ⟨⟩
    exact hf _
  have hlast : ∀ {α : Type} {tokens : List Token} (p : Phrase α tokens) {f : α → Statement},
      (∀ a, (f a).location = some t.location) →
      (p.map fun a => Item.statement (f a)).val.Gives fun i => ∀ s, i = .statement s → s.location = some t.location := by
    refine fun p _ hf => Phrase.map_gives p.gives_true ?_
    rintro a - _ ⟨⟩
    exact hf a
  unfold item
  split
  · split
    · rintro _ _ ⟨⟩
    · split
      · exact Phrase.bind_gives fun _ _ _ => hlast _ fun _ => rfl
      · exact hsingle fun _ => rfl
  · exact hsingle fun _ => rfl
  · refine Phrase.bind_gives fun _ _ _ => Phrase.bind_gives fun _ _ _ => Phrase.bind_gives fun _ _ _ => ?_
    exact Phrase.bind_gives fun _ _ _ => hlast _ fun _ => rfl
  · refine Phrase.bind_gives fun _ _ _ => Phrase.bind_gives fun _ _ _ => Phrase.bind_gives fun _ _ _ => ?_
    exact hlast _ fun _ => rfl
  · exact Phrase.bind_gives fun _ _ _ => Phrase.bind_gives fun _ _ _ => hlast _ fun _ => rfl
  · refine Phrase.bind_gives fun _ _ _ => Phrase.map_gives (Phrase.gives_true _) ?_
    rintro p - _ ⟨⟩
  · split
    · exact hlast _ fun _ => rfl
    · rintro _ _ ⟨⟩

end Grammar

/-- The statement is one of a unit: it yields some of its tokens and stands where they start. -/
def Statement.IsOf (tokens : List Token) (s : Statement) : Prop :=
  ∃ used, used <:+: tokens ∧ s.Yields (used.map Token.terminal) ∧ ∃ t ∈ used, s.location = some t.location

theorem Statement.isOf_of_item {ending : Ending} {t : Token} {tail rest : List Token} {s : Statement}
    (hregular : Grammar.Regular (t :: tail)) (h : (Grammar.item ending t tail).val = .read (.statement s) rest) :
    s.IsOf (t :: tail) := by
  have hmeets := Grammar.item_meets ending t tail hregular
  have hlocation := Grammar.item_location ending t tail _ _ h s rfl
  rw [h] at hmeets
  obtain ⟨used, heq, hused, -⟩ := hmeets
  have hwithin := (Grammar.item ending t tail).property
  rw [h] at hwithin
  cases used with
  | nil =>
    -- An item uses up a token at least.
    rw [List.nil_append] at heq
    exact absurd (heq ▸ hwithin) (Nat.lt_irrefl _)
  | cons u used =>
    obtain ⟨rfl, rfl⟩ := List.cons.inj heq
    exact ⟨t :: used, (List.prefix_append _ rest).isInfix, hused, t, List.mem_cons_self, hlocation⟩

/-! ## Reading -/

namespace Unit

variable {env : Surroundings} {P : Statement → Prop}

def GivesAll (P : Statement → Prop) (step : Reporting (List Statement)) : Prop :=
  ∀ j, Leads step j (fun ss _ => ∀ s ∈ ss, P s) fun _ _ => True

namespace GivesAll

variable {α : Type} {step : Reporting (List Statement)}

theorem pure {ss : List Statement} (h : ∀ s ∈ ss, P s) : GivesAll P (pure ss) :=
  fun _ => Leads.of_pure h

theorem behind {before : Reporting α} {next : α → Reporting (List Statement)} (h : ∀ x, GivesAll P (next x)) :
    GivesAll P (before >>= next) := by
  intro j
  cases hs : before j with
  | ok x k => exact Leads.of_ok_bind hs (h x k)
  | error e k => exact Leads.of_error (bind_of_error hs) trivial

theorem bind {next : List Statement → Reporting (List Statement)} (h : GivesAll P step)
    (hnext : ∀ ss, (∀ s ∈ ss, P s) → GivesAll P (next ss)) : GivesAll P (step >>= next) :=
  fun j => Leads.of_bind (h j) (fun ss k hss => hnext ss hss k) fun _ _ _ => trivial

theorem stop (fault : Fault) : GivesAll P (Journal.stop fault) :=
  behind fun _ _ => Leads.of_throw trivial

theorem giveUp (obstacle : Obstacle) : GivesAll P (Journal.giveUp obstacle) := by
  cases obstacle with
  | fault fault => exact stop fault
  | search e => exact fun _ => Leads.of_throw trivial

end GivesAll

/-- Behind a fault, reading gives what it does behind the token there. -/
theorem resume_givesAll {ending : Ending} {active : List ActiveFile} {file : String} {rest : List Token}
    (h : ∀ u after, rest = u :: after → GivesAll P (items env active file ending after)) :
    GivesAll P (resume env active file ending rest) := by
  cases rest with
  | nil => exact .pure (List.forall_mem_nil _)
  | cons u after =>
    rw [resume]
    split
    · exact .stop _
    · exact h u after rfl

/-- The statement is one of a unit within reach. -/
def Comes (env : Surroundings) (file text : String) (s : Statement) : Prop :=
  ∃ name source, InReach env file text name source ∧ s.IsOf (tokenize name source).1

variable {main text : String}

mutual

theorem read_givesAll (active : List ActiveFile) (file source : String) (hunit : InReach env main text file source) :
    GivesAll (Comes env main text) (read env active file source) := by
  intro j
  rw [read]
  refine Leads.of_bind (start_leads (N := fun _ => True) file source j) ?_ fun _ _ _ => trivial
  rintro stream k ⟨rfl, -, -⟩
  have hitems := items_givesAll active file source hunit (tokenize file source).2 _ List.suffix_rfl
  exact hitems.bind (fun ss hss => .behind fun _ => .pure hss) k
termination_by ((idlePlaces env.tree active).length, 1, 0)

/-- The tokens ahead are the last ones of a unit within reach, and what is read from them comes from such units. -/
theorem items_givesAll (active : List ActiveFile) (file source : String) (hunit : InReach env main text file source)
    (ending : Ending) (tokens : List Token) (htokens : tokens <:+ (tokenize file source).1) :
    GivesAll (Comes env main text) (items env active file ending tokens) := by
  match tokens with
  | [] =>
    rw [items]
    exact .pure (List.forall_mem_nil _)
  | t :: tail =>
    have hregular : Grammar.Regular (t :: tail) := fun u hu => tokenize_isRegular file source u (htokens.mem hu)
    have hmeets := Grammar.item_meets ending t tail hregular
    have hwithin := (Grammar.item ending t tail).property
    cases hitem : (Grammar.item ending t tail).val with
    | read i rest =>
      rw [hitem] at hmeets hwithin
      have hshorter : rest.length < (t :: tail).length := hwithin
      obtain ⟨used, heq, hused, -⟩ := hmeets
      have hrest : rest <:+ t :: tail := heq ▸ List.suffix_append used rest
      have honward := items_givesAll active file source hunit ending rest (hrest.trans htokens)
      cases i with
      | statement s =>
        obtain ⟨used, hpart, hs⟩ := Statement.isOf_of_item hregular hitem
        rw [items_of_statement hitem]
        refine honward.bind fun ss hss => .pure (List.forall_mem_cons.2 ⟨?_, hss⟩)
        exact ⟨file, source, hunit, used, hpart.trans htokens.isInfix, hs⟩
      | inclusion keyword path location =>
        have hinclusion : HasInclusion (tokenize file source).1 path :=
          (HasInclusion.of_item hregular hitem).trans (htokens.isInfix.map _)
        rw [items_of_inclusion hitem, enter]
        split
        · exact .giveUp _
        · rename_i inclusion hopen
          obtain ⟨content, hsought, -, htext⟩ := open?_eq_ok_sought hopen
          have hinner := read_givesAll (active ++ [⟨inclusion.place, some location⟩])
            inclusion.path.written inclusion.text (.inclusion hunit hinclusion hsought htext)
          refine .behind fun _ => hinner.bind fun ss hss => honward.bind fun more hmore => .pure ?_
          exact List.forall_mem_append.2 ⟨hss, hmore⟩
    | refused fault rest =>
      rw [hitem] at hmeets hwithin
      rw [items_of_refusal hitem]
      split
      · exact .stop _
      · refine .behind fun _ => resume_givesAll fun u after hrest => ?_
        subst hrest
        have hshorter : after.length < (t :: tail).length := hwithin
        have hafter : after <:+ t :: tail := (List.suffix_cons u after).trans hmeets.1
        exact items_givesAll active file source hunit ending after (hafter.trans htokens)
    | unreadable e =>
      rw [items_of_unreadable hitem]
      exact fun _ => Leads.of_throw trivial
termination_by ((idlePlaces env.tree active).length, 0, tokens.length)
decreasing_by
  all_goals first
    | exact Prod.Lex.left _ _ (idlePlaces_length_lt _ _)
    | decreasing_tactic

end

end Unit

/-- Every statement of a program that is read is one of a unit within reach, also if faults were recorded on the
way. -/
theorem Program.read_comes (env : Surroundings) (file text : String) (j : Journal) :
    Leads (Program.read env file text) j (fun p _ => ∀ s ∈ p.statements, Unit.Comes env file text s)
      fun _ _ => True := by
  cases hactive : Unit.initiallyActive env file with
  | error e =>
    rw [Program.read_of_search hactive]
    exact Leads.of_throw trivial
  | ok active =>
    rw [Program.read_of_active hactive]
    exact Leads.of_bind (Unit.read_givesAll active file text .self j) (fun _ _ hss => Leads.of_pure hss)
      fun _ _ _ => trivial

/-- Where the file of an embedding is looked for, and by which path, stands in a unit within reach. -/
theorem Unit.Comes.embedding {env : Surroundings} {file text name path : String} {l : Option Location}
    (h : Unit.Comes env file text (.embedding l name path)) :
    ∃ unit source, Unit.InReach env file text unit source ∧ Unit.HasEmbedding (tokenize unit source).1 path ∧
      l.map Location.file = some unit := by
  obtain ⟨unit, source, hreach, used, hpart, ⟨-, hyields⟩, t, ht, hlocation⟩ := h
  refine ⟨unit, source, hreach, ⟨name, hyields ▸ hpart.map _⟩, ?_⟩
  obtain rfl : l = some t.location := hlocation
  exact congrArg some ((tokenize_inFile unit source).1 t (hpart.mem ht))

end AvmAssembler
