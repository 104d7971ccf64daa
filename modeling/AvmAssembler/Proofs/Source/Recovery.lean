import AvmAssembler.Proofs.Source.Moments
import AvmAssembler.Proofs.Source.Positions

/-! # Recovery

A refused item leaves off at the token that its fault is located at, or at the end, and recovery skips that token. One
fault is different: an integer literal is used up before it is found not to fit into a word, so its fault is located
right in front of what is skipped. The locations of the tokens of a text and of its end are all different, so it is
determined by its location which token a fault blames.
-/

namespace AvmAssembler

/-! ## Where reading stops -/

/-- The fault of an integer literal that does not fit into a word, which is found when the literal has been used up. -/
def Fault.isBelated (f : Fault) : Bool :=
  match f.cause with
  | .wideInteger _ => true
  | _ => false

/-- If there are no tokens ahead, the text ends well. -/
def Ending.Closes (ending : Ending) (tokens : List Token) : Prop := tokens = [] → ending.IsComplete

/-- What a fault of the tokens ahead blames when reading stopped at the rest of them: what stands there, or an integer
literal right in front of that, unless the fault is fatal. -/
inductive Fault.Blames (ending : Ending) (tokens : List Token) : Fault → List Token → Prop
  | fatal {f rest} : f.isFatal = true → Blames ending tokens f rest
  | ahead {f rest} : f.isBelated = false → f.location = some (Grammar.place ending rest) → rest <:+ tokens →
      ending.Closes rest → Blames ending tokens f rest
  | literal {t rest} : t :: rest <:+ tokens →
      Blames ending tokens ⟨.wideInteger t.text, some t.location⟩ rest

theorem Fault.Blames.of_suffix {ending : Ending} {tokens tokens' rest : List Token} {f : Fault}
    (h : f.Blames ending tokens rest) (hsuffix : tokens <:+ tokens') : f.Blames ending tokens' rest := by
  cases h with
  | fatal hfatal => exact .fatal hfatal
  | ahead hbelated hlocation hrest hcloses => exact .ahead hbelated hlocation (hrest.trans hsuffix) hcloses
  | literal hrest => exact .literal (hrest.trans hsuffix)

/-- A value is followed by an end of the tokens ahead, and a fault blames what it is located at. -/
def Outcome.Places {α : Type} (ending : Ending) (tokens : List Token) : Outcome α → Prop
  | read _ rest => rest <:+ tokens ∧ ending.Closes rest
  | refused fault rest => fault.Blames ending tokens rest
  | unreadable _ => True

namespace Phrase

variable {α β : Type} {ending : Ending} {tokens : List Token}

theorem refuse_places {fault : Fault} (hbelated : fault.isBelated = false)
    (hlocation : fault.location = some (Grammar.place ending tokens)) (hcloses : ending.Closes tokens) :
    (refuse fault : Phrase α tokens).val.Places ending tokens :=
  .ahead hbelated hlocation List.suffix_rfl hcloses

theorem map_places {p : Phrase α tokens} (h : p.val.Places ending tokens) (f : α → β) :
    (p.map f).val.Places ending tokens := by
  obtain ⟨o, ho⟩ := p
  cases o <;> exact h

theorem bind_places {p : Phrase α tokens} {f : α → (rest : List Token) → rest.length < tokens.length → Phrase β rest}
    (h : p.val.Places ending tokens)
    (hf : ∀ a rest hlt, ending.Closes rest → (f a rest hlt).val.Places ending rest) :
    (p.bind f).val.Places ending tokens := by
  obtain ⟨o, ho⟩ := p
  cases o with
  | read a rest =>
    obtain ⟨hsuffix, hcloses⟩ := h
    have hnext := hf a rest ho hcloses
    change (f a rest ho).val.Places ending tokens
    cases hval : (f a rest ho).val with
    | read b after =>
      rw [hval] at hnext
      exact ⟨hnext.1.trans hsuffix, hnext.2⟩
    | refused fault after =>
      rw [hval] at hnext
      exact Fault.Blames.of_suffix hnext hsuffix
    | unreadable e => trivial
  | refused fault rest => exact h
  | unreadable e => trivial

theorem bindIf_places {p : Phrase α tokens} {continues : List Token → Bool}
    {f : α → (rest : List Token) → rest.length < tokens.length → Phrase β rest} {finish : α → β}
    (h : p.val.Places ending tokens)
    (hf : ∀ a rest hlt, ending.Closes rest → (f a rest hlt).val.Places ending rest) :
    (p.bindIf continues f finish).val.Places ending tokens := by
  obtain ⟨o, ho⟩ := p
  cases o with
  | read a rest =>
    simp only [bindIf]
    split
    · exact bind_places h hf
    · exact h
  | refused fault rest => exact h
  | unreadable e => trivial

end Phrase

namespace Grammar

variable {ending : Ending} {tokens : List Token}

theorem take_places (ending : Ending) (t : Token) (rest : List Token) :
    (take ending t rest).val.Places ending (t :: rest) := by
  unfold take
  split
  · exact .fatal rfl
  · rename_i hnot
    refine ⟨List.suffix_cons t rest, fun hrest => ?_⟩
    cases hending : ending with
    | complete l => exact ⟨l, rfl⟩
    | malformed f l => exact absurd hending (hnot f l hrest)

theorem unexpected_places {α : Type} (expected : Expected) (hcloses : ending.Closes tokens) :
    (Phrase.refuse (unexpected ending expected tokens) : Phrase α tokens).val.Places ending tokens :=
  Phrase.refuse_places rfl rfl hcloses

theorem accept_places {test : Token → Bool} {fault : Fault} (hbelated : fault.isBelated = false)
    (hlocation : fault.location = some (place ending tokens)) (hcloses : ending.Closes tokens) :
    (accept ending test fault tokens).val.Places ending tokens := by
  unfold accept
  split
  · split
    · exact take_places ending _ _
    · exact Phrase.refuse_places hbelated hlocation hcloses
  · exact Phrase.refuse_places hbelated hlocation hcloses

theorem expect_places (expected : Expected) {test : Token → Bool} (hcloses : ending.Closes tokens) :
    (expect ending expected test tokens).val.Places ending tokens :=
  accept_places rfl rfl hcloses

theorem closing_places (opened : Location) (hcloses : ending.Closes tokens) :
    (closing ending opened tokens).val.Places ending tokens :=
  accept_places rfl rfl hcloses

theorem sizeofTarget_places (hcloses : ending.Closes tokens) :
    (sizeofTarget ending tokens).val.Places ending tokens := by
  unfold sizeofTarget
  split
  · split
    · exact Phrase.map_places (take_places ending _ _) _
    · exact Phrase.map_places (expect_places .identifier hcloses) _
    · exact unexpected_places .sizeofTarget hcloses
  · exact unexpected_places .sizeofTarget hcloses

/-! ## Expressions -/

/-- An atom is refused only as an integer literal that does not fit into a word. -/
theorem atom_refused {t : Token} {fault : Fault} (h : atom t = .error (.inl fault)) :
    fault = ⟨.wideInteger t.text, some t.location⟩ := by
  unfold atom at h
  split at h
  · unfold integerLiteral at h
    split at h
    · cases h
    · split at h
      · cases h
      · cases h
        rfl
  · split at h <;> cases h
  all_goals cases h

/-- The token of an atom has been used up when the atom is refused. -/
theorem check_atom_places (ending : Ending) (t : Token) (rest : List Token) :
    ((take ending t rest).check atom).val.Places ending (t :: rest) := by
  have htake := take_places ending t rest
  rcases htaken : take ending t rest with ⟨o, ho⟩
  rw [htaken] at htake
  cases o with
  | read u left =>
    obtain ⟨rfl, rfl⟩ : u = t ∧ left = rest := by
      have hval := congrArg Subtype.val htaken
      unfold take at hval
      split at hval <;> cases hval
      exact ⟨rfl, rfl⟩
    simp only [Phrase.check]
    split
    · exact htake
    · rename_i fault hfault
      rw [atom_refused hfault]
      exact .literal List.suffix_rfl
    · trivial
  | refused fault left => exact htake
  | unreadable e => trivial

mutual

theorem expression_places (tokens : List Token) (hcloses : ending.Closes tokens) :
    (expression ending tokens).val.Places ending tokens := by
  match tokens with
  | [] =>
    rw [expression]
    exact unexpected_places .expression hcloses
  | t :: rest =>
    rw [expression]
    split
    · exact Phrase.bind_places (take_places ending t rest) fun _ inner hlt hinner => form_places t.location inner hinner
    · split
      · exact check_atom_places ending t rest
      · exact unexpected_places .expression hcloses
termination_by (tokens.length, 0)

theorem form_places (opened : Location) (tokens : List Token) (hcloses : ending.Closes tokens) :
    (form ending opened tokens).val.Places ending tokens := by
  match tokens with
  | [] =>
    rw [form]
    exact unexpected_places .operatorOrSizeof hcloses
  | t :: rest =>
    rw [form]
    split
    · refine Phrase.bind_places (take_places ending t rest) fun _ inner _ hinner => ?_
      refine Phrase.bind_places (sizeofTarget_places hinner) fun target after _ hafter => ?_
      exact Phrase.map_places (closing_places opened hafter) _
    · refine Phrase.bind_places (take_places ending t rest) fun _ inner hlt hinner => ?_
      exact Phrase.map_places (operands_places opened inner hinner) _
    · exact unexpected_places .operatorOrSizeof hcloses
termination_by (tokens.length, 0)

theorem operands_places (opened : Location) (tokens : List Token) (hcloses : ending.Closes tokens) :
    (operands ending opened tokens).val.Places ending tokens := by
  rw [operands]
  split
  · refine Phrase.bind_places (expression_places tokens hcloses) fun e rest hlt hrest => ?_
    exact Phrase.map_places (operands_places opened rest hrest) _
  · exact Phrase.map_places (closing_places opened hcloses) _
termination_by (tokens.length, 1)

end

/-! ## Items -/

theorem initializer_places (hcloses : ending.Closes tokens) :
    (initializer ending tokens).val.Places ending tokens := by
  refine Phrase.bindIf_places (expression_places tokens hcloses) fun value rest _ hrest => ?_
  refine Phrase.bind_places (expect_places .expression hrest) fun _ after _ hafter => ?_
  exact Phrase.map_places (expression_places after hafter) _

theorem initializers_places (tokens : List Token) (hcloses : ending.Closes tokens) :
    (initializers ending tokens).val.Places ending tokens := by
  rw [initializers]
  refine Phrase.bindIf_places (initializer_places hcloses) fun value rest _ hrest => ?_
  refine Phrase.bind_places (expect_places .expression hrest) fun _ after _ hafter => ?_
  exact Phrase.map_places (initializers_places after hafter) _
termination_by tokens.length

theorem declaredName_places (hcloses : ending.Closes tokens) :
    (declaredName ending tokens).val.Places ending tokens :=
  Phrase.map_places (expect_places .identifier hcloses) _

theorem elementType_places (hcloses : ending.Closes tokens) :
    (elementType ending tokens).val.Places ending tokens :=
  Phrase.map_places (expect_places .type hcloses) _

/-- Reading an item stops at what its fault is located at, or right behind an integer literal that does not fit. -/
theorem item_places (ending : Ending) (t : Token) (rest : List Token) :
    (item ending t rest).val.Places ending (t :: rest) := by
  have hcloses : ending.Closes (t :: rest) := fun h => by cases h
  have htake := take_places ending t rest
  unfold item
  split
  · split
    · exact Phrase.refuse_places rfl rfl hcloses
    · split
      · refine Phrase.bind_places htake fun _ inner _ hinner => ?_
        exact Phrase.map_places (expression_places inner hinner) _
      · exact Phrase.map_places htake _
  · exact Phrase.map_places htake _
  · refine Phrase.bind_places htake fun _ r₁ _ h₁ => ?_
    refine Phrase.bind_places (declaredName_places h₁) fun name r₂ _ h₂ => ?_
    refine Phrase.bind_places (elementType_places h₂) fun ty r₃ _ h₃ => ?_
    refine Phrase.bind_places (expect_places .equals h₃) fun _ r₄ _ h₄ => ?_
    exact Phrase.map_places (initializers_places r₄ h₄) _
  · refine Phrase.bind_places htake fun _ r₁ _ h₁ => ?_
    refine Phrase.bind_places (declaredName_places h₁) fun name r₂ _ h₂ => ?_
    refine Phrase.bind_places (expect_places .equals h₂) fun _ r₃ _ h₃ => ?_
    exact Phrase.map_places (expression_places r₃ h₃) _
  · refine Phrase.bind_places htake fun _ r₁ _ h₁ => ?_
    refine Phrase.bind_places (declaredName_places h₁) fun name r₂ _ h₂ => ?_
    exact Phrase.map_places (expect_places .filePath h₂) _
  · refine Phrase.bind_places htake fun _ r₁ _ h₁ => ?_
    exact Phrase.map_places (expect_places .filePath h₁) _
  · split
    · exact Phrase.map_places (expression_places (t :: rest) hcloses) _
    · exact unexpected_places .statement hcloses

end Grammar

/-! ## Locations tell tokens apart -/

/-- The position behind characters is found nowhere later. -/
theorem Position.eq_nil_of_behind_append {done more : List Char} (h : behind (done ++ more) = behind done) :
    more = [] := by
  obtain ⟨hline, hcolumn⟩ := Position.mk.inj h
  have hcount : more.count '\n' = 0 := by
    rw [List.count_append] at hline
    omega
  have hplain : ∀ c ∈ more.reverse, decide (c ≠ '\n') = true := fun c hc =>
    decide_eq_true fun hnewline => List.count_eq_zero.1 hcount (hnewline ▸ List.mem_reverse.1 hc)
  rw [Text.lastLine, List.reverse_append, List.takeWhile_append_of_pos hplain, List.reverse_append,
    List.reverse_reverse, List.length_append] at hcolumn
  refine List.eq_nil_of_length_eq_zero ?_
  rw [Text.lastLine] at hcolumn
  omega

theorem Source.position_eq_of_locate {source : Source} {p q : Position} {n k : Nat}
    (h : source.locate p n = source.locate q k) : p = q := by
  obtain ⟨p₁, p₂⟩ := p
  obtain ⟨q₁, q₂⟩ := q
  simp only [locate, Location.mk.injEq] at h
  obtain ⟨-, hline, hcolumn, -, -⟩ := h
  rw [Int.ofNat_inj.1 hline, Int.ofNat_inj.1 hcolumn]

namespace Cursor

variable {source : Source} {cursor stop : Cursor}

/-- Where a stream ends, it does so at or behind the cursor. -/
theorem next_ending_location {ending : Ending} (h : cursor.next source = (.ending ending, stop)) :
    ∃ more n, ending.location = source.locate (cursor.position.after more) n := by
  obtain ⟨gap, hgap⟩ := skipGap_skips cursor.rest cursor.position
  rcases hstart : skipGap false cursor.rest cursor.position with ⟨rest, q⟩
  rw [hstart] at hgap
  obtain rfl : q = cursor.position.after gap := hgap.position
  cases rest with
  | nil =>
    simp only [next, hstart] at h
    cases h
    exact ⟨gap, 0, rfl⟩
  | cons c cs =>
    rcases hlexeme : Lexeme.scan c cs with ⟨content, raw, left⟩
    cases content with
    | malformed fault place =>
      rw [next_of_malformed hstart hlexeme] at h
      cases h
      cases place with
      | start => exact ⟨gap, 1, rfl⟩
      | current => exact ⟨gap ++ raw, 1, by rw [Position.after_append]; rfl⟩
    | token kind text => simp [next_of_token hstart hlexeme] at h

/-- The locations of the tokens ahead and of their end are different, and at or behind the cursor. -/
theorem tokens_locations (source : Source) {done : List Char} (hposition : cursor.position = .behind done) :
    ((cursor.tokens source).1.map Token.location ++ [(cursor.tokens source).2.location]).Nodup ∧
      ∀ l ∈ (cursor.tokens source).1.map Token.location ++ [(cursor.tokens source).2.location],
        ∃ more n, l = source.locate (.behind (done ++ more)) n := by
  fun_induction cursor.tokens source generalizing done with
  | case1 cursor t stop hnext ts ending hrest ih =>
    obtain ⟨gap, slice, -, -, hstop, hlocation, hne, -⟩ := next_token hnext
    rw [hposition, ← Position.behind_append] at hstop hlocation
    rw [hrest] at ih
    obtain ⟨hnodup, hbehind⟩ := ih hstop
    refine ⟨?_, ?_⟩
    · rw [List.map_cons, List.cons_append, List.nodup_cons]
      refine ⟨fun hmem => ?_, hnodup⟩
      obtain ⟨more, n, hl⟩ := hbehind _ hmem
      have hsame := Source.position_eq_of_locate (hl.symm.trans hlocation)
      rw [List.append_assoc, List.append_assoc, ← List.append_assoc done] at hsame
      exact hne (List.append_eq_nil_iff.1 (Position.eq_nil_of_behind_append hsame)).1
    · intro l hl
      rcases List.mem_cons.1 hl with rfl | hl
      · exact ⟨gap, _, hlocation⟩
      · obtain ⟨more, n, rfl⟩ := hbehind l hl
        exact ⟨gap ++ slice ++ more, n, by rw [List.append_assoc done]⟩
  | case2 cursor ending stop hnext =>
    obtain ⟨more, n, hl⟩ := next_ending_location hnext
    rw [hposition, ← Position.behind_append] at hl
    refine ⟨by simp, fun l hmem => ⟨more, n, ?_⟩⟩
    rw [← hl]
    simpa using hmem

end Cursor

/-- The locations of the tokens of a text and of its end are all different. -/
theorem tokenize_nodup_locations (file text : String) :
    ((tokenize file text).1.map Token.location ++ [(tokenize file text).2.location]).Nodup :=
  (Cursor.tokens_locations _ (Cursor.stands_ofText text).position).1

/-- A token of a text is not located at its end. -/
theorem tokenize_location_ne {file text : String} {t : Token} (h : t ∈ (tokenize file text).1) :
    t.location ≠ (tokenize file text).2.location := by
  have hnodup := tokenize_nodup_locations file text
  exact fun heq => List.disjoint_of_nodup_append hnodup (List.mem_map_of_mem h) (by simp [heq])

/-- What is behind a token of a text is determined by the location of the token. -/
theorem tokenize_behind_unique {file text : String} {used used' after after' : List Token} {t t' : Token}
    (h : (tokenize file text).1 = used ++ t :: after) (h' : (tokenize file text).1 = used' ++ t' :: after')
    (hlocation : t.location = t'.location) : after = after' := by
  have hnodup := (List.nodup_append.1 (tokenize_nodup_locations file text)).1
  rw [h, List.map_append, List.map_cons, List.nodup_append, List.nodup_cons] at hnodup
  obtain ⟨-, ⟨hafter, -⟩, hdisjoint⟩ := hnodup
  have hused : t' ∉ used := fun hmem =>
    hdisjoint _ (List.mem_map_of_mem hmem) _ (List.mem_cons_self ..) hlocation.symm
  have hleft : t' ∉ after := fun hmem => hafter (hlocation ▸ List.mem_map_of_mem hmem)
  exact ((List.append_cons_inj_of_notMem hused hleft).1 (h.symm.trans h')).2.2

/-! ## Moments of refusal -/

theorem Fault.Blames.suffix {ending : Ending} {tokens rest : List Token} {f : Fault} (h : f.Blames ending tokens rest)
    (hfatal : f.isFatal = false) : rest <:+ tokens := by
  cases h with
  | fatal hfatal' => simp [hfatal'] at hfatal
  | ahead _ _ hrest _ => exact hrest
  | @literal t _ hrest => exact (List.suffix_cons t rest).trans hrest

namespace Unit

variable {env : Surroundings} {m m' : Moment} {fault : Fault}

/-- The tokens ahead are the last ones of the program's text or of that of a file, and end as it does. -/
def Moment.Within (env : Surroundings) (text : String) (m : Moment) : Prop :=
  ∃ source, (source = text ∨ env.tree.HasText source) ∧ m.ahead <:+ (tokenize m.file source).1 ∧
    m.ending = (tokenize m.file source).2

theorem Moment.within_start {file text source : String} {j k : Journal} {stream : List Token × Ending}
    (h : start file source j = .ok stream k) (hsource : source = text ∨ env.tree.HasText source)
    (active : List ActiveFile) : Moment.Within env text ⟨active, file, stream.2, stream.1, k⟩ := by
  obtain ⟨rfl, -, -⟩ := (start_leads (N := fun _ => True) file source j).at_ok h
  exact ⟨source, hsource, List.suffix_rfl, rfl⟩

theorem Moment.Within.of_suffix {text : String} (hm : m.Within env text) {ahead : List Token}
    (hsuffix : ahead <:+ m.ahead) (j : Journal) : Moment.Within env text { m with ahead := ahead, journal := j } := by
  obtain ⟨source, hsource, hahead, hending⟩ := hm
  exact ⟨source, hsource, hsuffix.trans hahead, hending⟩

theorem Step.within {text : String} (h : Step env m m') (hm : m.Within env text) : m'.Within env text := by
  cases h with
  | @statement _ _ ending t tail _ _ _ hitem | @leave _ _ ending t tail _ _ _ _ _ _ _ _ hitem _ _ =>
    have hplaces := Grammar.item_places ending t tail
    rw [hitem] at hplaces
    exact hm.of_suffix hplaces.1 _
  | @recovery _ _ ending t tail fault rest _ _ hitem hfatal _ _ =>
    have hplaces := Grammar.item_places ending t tail
    rw [hitem] at hplaces
    exact hm.of_suffix ((List.tail_suffix rest).trans (Fault.Blames.suffix hplaces hfatal)) _
  | enter _ hopen hstart => exact Moment.within_start hstart (.inr (open?_eq_ok hopen)) _

theorem Steps.within {text : String} (h : Steps env m m') (hm : m.Within env text) : m'.Within env text := by
  induction h with
  | refl => exact hm
  | tail _ hstep ih => exact hstep.within ih

theorem Reached.within {file text : String} {j : Journal} (h : Reached env file text j m) : m.Within env text := by
  obtain ⟨active, stream, k, -, hstart, hsteps⟩ := h
  exact Steps.within hsteps (Moment.within_start hstart (.inl rfl) _)

/-- What is ahead is refused with a fault that does not end reading. -/
def Moment.Refuses (m : Moment) (fault : Fault) : Prop :=
  ∃ t tail rest, m.ahead = t :: tail ∧ (Grammar.item m.ending t tail).val = .refused fault rest ∧
    fault.isFatal = false

/-- From a moment at which what is ahead is refused, a step records the fault and skips the token at which reading
stopped. -/
theorem Step.of_refuses (h : Step env m m') (hm : m.Refuses fault) :
    ∃ rest, fault.Blames m.ending m.ahead rest ∧ fault.isFatal = false ∧
      Journal.report fault m.journal = .ok () m'.journal ∧
      m' = { m with ahead := rest.tail, journal := m'.journal } ∧ m.outcome env = m'.outcome env := by
  obtain ⟨t, tail, rest, hahead, hrefused, hfatal⟩ := hm
  cases h with
  | @recovery active file ending _ _ fault' rest' j k hitem hfatal' hreport htaken =>
    cases hahead
    obtain ⟨rfl, rfl⟩ := Outcome.refused.inj (hitem.symm.trans hrefused)
    have hplaces := Grammar.item_places ending t tail
    rw [hitem] at hplaces
    refine ⟨rest', hplaces, hfatal, hreport, rfl, ?_⟩
    unfold Moment.outcome
    rw [items_of_refusal hitem, if_neg (by simp [hfatal]), bind_of_ok hreport, resume_of_taken htaken]
  | statement hitem | enter hitem _ _ | leave hitem _ _ =>
    cases hahead
    cases hitem.symm.trans hrefused

end Unit

/-- When an item of a unit is refused with a fault that is not fatal, the fault is recorded, and the unit is read on in
the same way as from the next moment. The fault is located at a token ahead or at the end of the text, and their
locations are all different. If it is located at the end, nothing is ahead at the next moment. If it is located at a
token, everything behind that token is ahead; but behind an integer literal that does not fit into a word, one more
token is skipped. -/
theorem Program.read_recovery {env : Surroundings} {file text : String} {j : Journal} {m m' : Unit.Moment}
    {fault : Fault} (hreached : Unit.Reached env file text j m) (hrefuses : m.Refuses fault)
    (hstep : Unit.Step env m m') :
    (Journal.report fault m.journal = .ok () m'.journal ∧ m.outcome env = m'.outcome env ∧
      m' = { m with ahead := m'.ahead, journal := m'.journal }) ∧
    ∃ source, (source = text ∨ env.tree.HasText source) ∧
      m.ahead <:+ (tokenize m.file source).1 ∧ m.ending = (tokenize m.file source).2 ∧
      ((tokenize m.file source).1.map Token.location ++ [(tokenize m.file source).2.location]).Nodup ∧
      (fault.location = some m.ending.location ∨ ∃ t ∈ m.ahead, fault.location = some t.location) ∧
      (fault.location = some m.ending.location → m'.ahead = []) ∧
      ∀ used t after, (tokenize m.file source).1 = used ++ t :: after → fault.location = some t.location →
        m'.ahead = if fault.isBelated then after.tail else after := by
  obtain ⟨rest, hblames, hfatal, hreport, hnext, houtcome⟩ := hstep.of_refuses hrefuses
  obtain ⟨source, hsource, hsuffix, hending⟩ := hreached.within
  have hahead : m'.ahead = rest.tail := congrArg Unit.Moment.ahead hnext
  refine ⟨⟨hreport, houtcome, hahead ▸ hnext⟩, source, hsource, hsuffix, hending, tokenize_nodup_locations _ _, ?_⟩
  cases hblames with
  | fatal hfatal' => simp [hfatal'] at hfatal
  | ahead hbelated hlocation hrest hcloses =>
    cases rest with
    | nil =>
      refine ⟨.inl hlocation, fun _ => hahead, fun used t after htokens ht => ?_⟩
      have hmem : t ∈ (tokenize m.file source).1 := by simp [htokens]
      have hsame : t.location = m.ending.location := Option.some.inj (ht.symm.trans hlocation)
      exact absurd (hending ▸ hsame) (tokenize_location_ne hmem)
    | cons u after' =>
      obtain ⟨used', htokens'⟩ := hrest.trans hsuffix
      have hmem : u ∈ (tokenize m.file source).1 := by simp [← htokens']
      refine ⟨.inr ⟨u, hrest.mem (by simp), hlocation⟩, fun hend => ?_, fun used t after htokens ht => ?_⟩
      · have hsame : u.location = m.ending.location := Option.some.inj (hlocation.symm.trans hend)
        exact absurd (hending ▸ hsame) (tokenize_location_ne hmem)
      · have hsame : t.location = u.location := Option.some.inj (ht.symm.trans hlocation)
        rw [hahead, hbelated, tokenize_behind_unique htokens htokens'.symm hsame]
        rfl
  | @literal u _ hrest =>
    -- The literal is behind the moment already, so what recovery skips is the token behind it.
    obtain ⟨used', htokens'⟩ := hrest.trans hsuffix
    have hmem : u ∈ (tokenize m.file source).1 := by simp [← htokens']
    refine ⟨.inr ⟨u, hrest.mem (by simp), rfl⟩, fun hend => ?_, fun used t after htokens ht => ?_⟩
    · exact absurd (hending ▸ Option.some.inj hend) (tokenize_location_ne hmem)
    · rw [hahead, tokenize_behind_unique htokens htokens'.symm (Option.some.inj ht).symm]
      rfl

/-- An equals sign is skipped where a statement is expected, and an instruction is ahead. -/
theorem Program.read_recovery_equals :
    let env : Surroundings := ⟨{}, []⟩
    ∃ m m' fault t u, Unit.Reached env "a" "= hlt" {} m ∧ m.Refuses fault ∧ Unit.Step env m m' ∧
      (tokenize m.file "= hlt").1 = [t, u] ∧ fault.location = some t.location ∧ m'.ahead = [u] := by
  intro env
  let t : Token := ⟨.equals, "=", ⟨"a", 1, 1, 1, "= hlt"⟩⟩
  let u : Token := ⟨.name, "hlt", ⟨"a", 1, 3, 3, "= hlt"⟩⟩
  let ending : Ending := .complete ⟨"a", 1, 6, 1, "= hlt"⟩
  let fault : Fault := ⟨.unexpected .statement (.other "="), some t.location⟩
  let begun : Journal := { log := [.parsing "a"] }
  let m : Unit.Moment := ⟨[], "a", ending, [t, u], begun⟩
  have htokens : tokenize "a" "= hlt" = ([t, u], ending) := by decide +kernel
  have hstart : Unit.start "a" "= hlt" {} = .ok ([t, u], ending) begun := by
    simp only [Unit.start, htokens]
    rfl
  have hreached : Unit.Reached env "a" "= hlt" {} m := ⟨[], _, begun, rfl, hstart, .refl⟩
  have hitem : (Grammar.item ending t [u]).val = .refused fault [t, u] := rfl
  have hrefuses : m.Refuses fault := ⟨t, [u], [t, u], rfl, hitem, rfl⟩
  obtain ⟨k, hreport⟩ : ∃ k, Journal.report fault begun = .ok () k := ⟨_, rfl⟩
  have hstep : Unit.Step env m { m with ahead := [u], journal := k } :=
    .recovery hitem rfl hreport fun v after hv f left htake => by
      cases hv
      cases htake
  refine ⟨m, _, fault, t, u, hreached, hrefuses, hstep, congrArg Prod.fst htokens, rfl, ?_⟩
  obtain ⟨-, source, -, ⟨used, hused⟩, -, -, -, -, hbehind⟩ := read_recovery hreached hrefuses hstep
  exact hbehind used t [u] hused.symm rfl

/-- The token behind an integer literal that does not fit into a word is not ahead at the next moment: the instruction
in the next line is skipped, and the program has no statements. -/
theorem Program.read_literal_skips :
    let env : Surroundings := ⟨{}, []⟩
    let text := "psh 18446744073709551616\nhlt\n"
    (∃ m m' fault p t u, Unit.Reached env "<input>" text {} m ∧ m.Refuses fault ∧ Unit.Step env m m' ∧
      (tokenize m.file text).1 = [p, t, u] ∧ fault.location = some t.location ∧ m'.ahead = []) ∧
    ∃ k, Program.read env "<input>" text {} = .ok ⟨[], "<input>"⟩ k := by
  intro env text
  let p : Token := ⟨.name, "psh", ⟨"<input>", 1, 1, 3, "psh 18446744073709551616"⟩⟩
  let t : Token := ⟨.integer .decimal, "18446744073709551616", ⟨"<input>", 1, 5, 20, "psh 18446744073709551616"⟩⟩
  let u : Token := ⟨.name, "hlt", ⟨"<input>", 2, 1, 3, "hlt"⟩⟩
  let ending : Ending := .complete ⟨"<input>", 3, 1, 1, ""⟩
  let fault : Fault := ⟨.wideInteger t.text, some t.location⟩
  let begun : Journal := { log := [.parsing "<input>"] }
  let m : Unit.Moment := ⟨[], "<input>", ending, [p, t, u], begun⟩
  have htokens : tokenize "<input>" text = ([p, t, u], ending) := by decide +kernel
  have hstart : Unit.start "<input>" text {} = .ok ([p, t, u], ending) begun := by
    simp only [Unit.start, htokens]
    rfl
  have hreached : Unit.Reached env "<input>" text {} m := ⟨[], _, begun, rfl, hstart, .refl⟩
  have hvalue : Numeral.integer .decimal t.text = .ok (2 ^ 64) := by decide +kernel
  have hatom : Grammar.atom t = .error (.inl fault) := by
    simp only [Grammar.atom, t, Grammar.integerLiteral] at hvalue ⊢
    rw [hvalue]
    rfl
  have hexpression : (Grammar.expression ending [t, u]).val = .refused fault [u] := by
    rw [Grammar.expression]
    change ((Grammar.take ending t [u]).check Grammar.atom).val = _
    simp only [Grammar.take, Phrase.check]
    rw [hatom]
  have hitem : (Grammar.item ending p [t, u]).val = .refused fault [u] := by
    change (Grammar.expression ending [t, u]).val.map _ = _
    rw [hexpression]
    rfl
  have hrefuses : m.Refuses fault := ⟨p, [t, u], [u], rfl, hitem, rfl⟩
  obtain ⟨k, hreport⟩ : ∃ k, Journal.report fault begun = .ok () k := ⟨_, rfl⟩
  have hstep : Unit.Step env m { m with ahead := [], journal := k } :=
    .recovery hitem rfl hreport fun v after hv f left htake => by
      cases hv
      cases htake
  refine ⟨⟨m, _, fault, p, t, u, hreached, hrefuses, hstep, congrArg Prod.fst htokens, rfl, rfl⟩, ?_⟩
  obtain ⟨_, -, -, -, -, houtcome⟩ := hstep.of_refuses hrefuses
  have hitems : Unit.items env m.active "<input>" ending [p, t, u] begun = .ok [] k := by
    rw [Unit.Moment.outcome, Unit.Moment.outcome, Unit.items] at houtcome
    exact houtcome
  have hread : ∃ l, Unit.read env m.active "<input>" text {} = .ok [] l := by
    rw [Unit.read, bind_of_ok hstart]
    exact ⟨_, bind_of_ok hitems⟩
  obtain ⟨l, hread⟩ := hread
  exact ⟨l, bind_of_ok hread⟩

end AvmAssembler
