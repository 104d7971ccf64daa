import AvmAssembler.Proofs.Relocation
import AvmAssembler.Proofs.Source.Inclusion
import AvmAssembler.Proofs.Source.Items

/-! # Units with the same tokens

Two units whose tokens differ in their locations alone are read alike: the same files are included, the same statements
are read and the same is reported, apart from locations.
-/

namespace AvmAssembler

open Correspondence

variable {f : Location → Location}

def ActiveFile.relocate (f : Location → Location) (a : ActiveFile) : ActiveFile :=
  ⟨a.place, a.included.map f⟩

theorem Outcome.cases_of_relocate {α β : Type} {move : α → β} {o o' : Outcome α}
    (h : o.relocate f move = o'.relocate f move) :
    (∃ a rest a' rest', o = .read a rest ∧ o' = .read a' rest' ∧ move a = move a' ∧
        rest.map (Token.relocate f) = rest'.map (Token.relocate f)) ∨
      (∃ fault rest fault' rest', o = .refused fault rest ∧ o' = .refused fault' rest' ∧
        fault.relocate f = fault'.relocate f ∧ rest.map (Token.relocate f) = rest'.map (Token.relocate f)) ∨
      ∃ e, o = .unreadable e ∧ o' = .unreadable e := by
  cases o with
  | read a rest =>
    cases o' with
    | read a' rest' =>
      obtain ⟨ha, hrest⟩ := Outcome.read.inj h
      exact .inl ⟨a, rest, a', rest', rfl, rfl, ha, hrest⟩
    | refused | unreadable => cases h
  | refused fault rest =>
    cases o' with
    | refused fault' rest' =>
      obtain ⟨hfault, hrest⟩ := Outcome.refused.inj h
      exact .inr (.inl ⟨fault, rest, fault', rest', rfl, rfl, hfault, hrest⟩)
    | read | unreadable => cases h
  | unreadable e =>
    cases o' with
    | unreadable e' =>
      obtain rfl : e = e' := Outcome.unreadable.inj h
      exact .inr (.inr ⟨e, rfl, rfl⟩)
    | read | refused => cases h

namespace Unit

variable {env : Surroundings} {file : String}

theorem start_alike {text text' : String}
    (htokens : (tokenize file text).1.map (Token.relocate f) = (tokenize file text').1.map (Token.relocate f))
    (hending : (tokenize file text).2.relocate f = (tokenize file text').2.relocate f) :
    (Journal.alike f).Mirrors (fun stream stream' => stream.1.map (Token.relocate f) = stream'.1.map (Token.relocate f) ∧
      stream.2.relocate f = stream'.2.relocate f) (start file text) (start file text') := by
  refine (Journal.note_alike rfl).bind fun _ _ _ => ?_
  generalize tokenize file text = stream at *
  generalize tokenize file text' = stream' at *
  obtain ⟨tokens, ending⟩ := stream
  obtain ⟨tokens', ending'⟩ := stream'
  cases tokens with
  | nil =>
    obtain rfl : tokens' = [] := by simpa using htokens.symm
    cases ending with
    | complete l =>
      cases ending' with
      | complete l' => exact .pure ⟨rfl, hending⟩
      | malformed fault' l' => cases hending
    | malformed fault l =>
      cases ending' with
      | complete l' => cases hending
      | malformed fault' l' =>
        obtain ⟨rfl, hl⟩ := Ending.malformed.inj hending
        exact Journal.stop_alike (by simp [Fault.relocate, Cause.relocate, hl])
  | cons t tail =>
    obtain ⟨t', tail', rfl⟩ : ∃ t' tail', tokens' = t' :: tail' := by
      cases tokens' with
      | nil => cases htokens
      | cons t' tail' => exact ⟨t', tail', rfl⟩
    exact .pure ⟨htokens, hending⟩

theorem take_alike {ending ending' : Ending} {t t' : Token} {rest rest' : List Token}
    (hending : ending.relocate f = ending'.relocate f) (ht : t.relocate f = t'.relocate f)
    (hrest : rest.map (Token.relocate f) = rest'.map (Token.relocate f)) :
    (Grammar.take ending t rest).val.relocate f (Token.relocate f) =
      (Grammar.take ending' t' rest').val.relocate f (Token.relocate f) := by
  rw [← Grammar.take_relocate, ← Grammar.take_relocate, hending, ht, hrest]

theorem item_alike {ending ending' : Ending} {t t' : Token} {rest rest' : List Token}
    (hending : ending.relocate f = ending'.relocate f) (ht : t.relocate f = t'.relocate f)
    (hrest : rest.map (Token.relocate f) = rest'.map (Token.relocate f)) :
    (Grammar.item ending t rest).val.relocate f (Grammar.Item.relocate f) =
      (Grammar.item ending' t' rest').val.relocate f (Grammar.Item.relocate f) := by
  rw [← Grammar.item_relocate, ← Grammar.item_relocate, hending, ht, hrest]

/-- The file that is being read is found by its place. -/
theorem find?_relocate (place : Place) (active : List ActiveFile) :
    ((active.map (ActiveFile.relocate f)).find? fun a => a.place = place) =
      (active.find? fun a => a.place = place).map (ActiveFile.relocate f) := by
  rw [List.find?_map]
  rfl

theorem opened_relocate (active : List ActiveFile) (path : String) (l : Location) :
    opened env file (active.map (ActiveFile.relocate f)) path (f l) =
      (opened env file active path l).mapError (Obstacle.relocate f) := by
  unfold opened
  split
  · rfl
  · rfl
  · rename_i resolved place content _
    rw [find?_relocate]
    cases active.find? fun a => a.place = place with
    | some a =>
      obtain ⟨place, included⟩ := a
      cases included <;> rfl
    | none =>
      dsimp only [Option.map_none]
      cases FileTree.textOf content <;> rfl

/-- Where the files that are being read differ in the places of their inclusion alone, an inclusion comes to the same. -/
theorem open?_alike {active active' : List ActiveFile} {l l' : Location} (path : String)
    (hactive : active.map (ActiveFile.relocate f) = active'.map (ActiveFile.relocate f)) (hl : f l = f l') :
    (∃ obstacle obstacle', open? env file active path l = .error obstacle ∧
        open? env file active' path l' = .error obstacle' ∧ obstacle.relocate f = obstacle'.relocate f) ∨
      ∃ i i', open? env file active path l = .ok i ∧ open? env file active' path l' = .ok i' ∧ i.path = i'.path ∧
        i.text = i'.text ∧ i.place = i'.place := by
  have hopened : (opened env file active path l).mapError (Obstacle.relocate f) =
      (opened env file active' path l').mapError (Obstacle.relocate f) := by
    rw [← opened_relocate, ← opened_relocate, hactive, hl]
  rw [← open?_parts, ← open?_parts] at hopened
  cases h : open? env file active path l with
  | error obstacle =>
    cases h' : open? env file active' path l' with
    | error obstacle' =>
      rw [h, h'] at hopened
      exact .inl ⟨obstacle, obstacle', rfl, rfl, Except.error.inj hopened⟩
    | ok i' =>
      rw [h, h'] at hopened
      cases hopened
  | ok i =>
    cases h' : open? env file active' path l' with
    | error obstacle' =>
      rw [h, h'] at hopened
      cases hopened
    | ok i' =>
      rw [h, h'] at hopened
      have hparts : i.parts = i'.parts := Except.ok.inj hopened
      simp only [Inclusion.parts, Prod.mk.injEq] at hparts
      exact .inr ⟨i, i', rfl, rfl, hparts.1, hparts.2.1, hparts.2.2⟩

theorem length_eq_of_map_eq {α β : Type} {g : α → β} {as as' : List α} (h : as.map g = as'.map g) :
    as.length = as'.length := by
  simpa using congrArg List.length h

/-- Statements are alike if they differ in locations alone. -/
abbrev SameStatements (f : Location → Location) (ss ss' : List Statement) : Prop :=
  ss.map (Statement.relocate f) = ss'.map (Statement.relocate f)

/-- An inclusion goes on alike if the file of it and what follows it are read alike. -/
theorem enter_alike {active active' : List ActiveFile} {keyword keyword' l l' : Location} {path : String}
    {onward onward' : Reporting (List Statement)}
    (hactive : active.map (ActiveFile.relocate f) = active'.map (ActiveFile.relocate f))
    (hkeyword : f keyword = f keyword') (hl : f l = f l')
    (hread : ∀ i : Inclusion env.tree active, (Journal.alike f).Mirrors (SameStatements f)
      (read env (active ++ [⟨i.place, some l⟩]) i.path.written i.text)
      (read env (active' ++ [⟨i.place, some l'⟩]) i.path.written i.text))
    (honward : (Journal.alike f).Mirrors (SameStatements f) onward onward') :
    (Journal.alike f).Mirrors (SameStatements f) (enter env active file path keyword l onward)
      (enter env active' file path keyword' l' onward') := by
  unfold enter
  rcases open?_alike path hactive hl with ⟨obstacle, obstacle', hopen, hopen', hobstacle⟩ |
    ⟨i, ⟨_, _, _, _, _⟩, hopen, hopen', rfl, rfl, rfl⟩
  · rw [hopen, hopen']
    exact Journal.giveUp_alike hobstacle
  · rw [hopen, hopen']
    refine Mirrors.bind (Journal.note_alike (by simp only [Event.relocate, hkeyword])) fun _ _ _ => ?_
    refine (hread i).bind fun inner inner' hinner => ?_
    exact honward.bind fun ss ss' hss => .pure (by rw [SameStatements, List.map_append, List.map_append, hinner, hss])

/-- Behind a fault, units go on alike if they do behind the token there. -/
theorem resume_alike {active active' : List ActiveFile} {ending ending' : Ending} {rest rest' : List Token}
    (hending : ending.relocate f = ending'.relocate f)
    (hrest : rest.map (Token.relocate f) = rest'.map (Token.relocate f))
    (h : ∀ u after u' after', rest = u :: after → rest' = u' :: after' →
      after.map (Token.relocate f) = after'.map (Token.relocate f) →
      (Journal.alike f).Mirrors (SameStatements f) (items env active file ending after)
        (items env active' file ending' after')) :
    (Journal.alike f).Mirrors (SameStatements f) (resume env active file ending rest)
      (resume env active' file ending' rest') := by
  cases rest with
  | nil =>
    obtain rfl : rest' = [] := by simpa using hrest.symm
    exact .pure rfl
  | cons u after =>
    obtain ⟨u', after', rfl, hu, hafter⟩ := List.map_eq_cons_iff.1 hrest.symm
    have hskip := h u after u' after' rfl rfl hafter.symm
    rw [resume, resume]
    rcases Outcome.cases_of_relocate (take_alike hending hu.symm hafter.symm) with
      ⟨v, left, v', left', htake, htake', -, -⟩ | ⟨fault, left, fault', left', htake, htake', hfault, -⟩ |
      ⟨e, htake, htake'⟩
    · rw [htake, htake']
      exact hskip
    · rw [htake, htake']
      exact Journal.stop_alike hfault
    · rw [htake, htake']
      exact hskip

mutual

theorem read_alike (active active' : List ActiveFile) (text text' : String) (file : String)
    (hactive : active.map (ActiveFile.relocate f) = active'.map (ActiveFile.relocate f))
    (htokens : (tokenize file text).1.map (Token.relocate f) = (tokenize file text').1.map (Token.relocate f))
    (hending : (tokenize file text).2.relocate f = (tokenize file text').2.relocate f) :
    (Journal.alike f).Mirrors (SameStatements f) (read env active file text) (read env active' file text') := by
  rw [read, read]
  refine (start_alike htokens hending).bind fun (tokens, ending) (tokens', ending') ⟨htokens, hending⟩ => ?_
  refine (items_alike active active' file ending ending' tokens tokens' hactive htokens hending).bind fun ss ss' hss => ?_
  refine Mirrors.bind (Journal.note_alike ?_) fun _ _ _ => .pure hss
  rw [length_eq_of_map_eq hss]
termination_by ((idlePlaces env.tree active).length, 1, 0)

theorem items_alike (active active' : List ActiveFile) (file : String) (ending ending' : Ending)
    (tokens tokens' : List Token)
    (hactive : active.map (ActiveFile.relocate f) = active'.map (ActiveFile.relocate f))
    (htokens : tokens.map (Token.relocate f) = tokens'.map (Token.relocate f))
    (hending : ending.relocate f = ending'.relocate f) :
    (Journal.alike f).Mirrors (SameStatements f) (items env active file ending tokens)
      (items env active' file ending' tokens') := by
  match tokens with
  | [] =>
    obtain rfl : tokens' = [] := by simpa using htokens.symm
    rw [items, items]
    exact .pure rfl
  | t :: tail =>
    obtain ⟨t', tail', rfl, ht, htail⟩ := List.map_eq_cons_iff.1 htokens.symm
    have hwithin := (Grammar.item ending t tail).property
    rcases Outcome.cases_of_relocate (item_alike hending ht.symm htail.symm) with
      ⟨i, rest, i', rest', hitem, hitem', hi, hrest⟩ | ⟨fault, rest, fault', rest', hitem, hitem', hfault, hrest⟩ |
      ⟨e, hitem, hitem'⟩
    · rw [hitem] at hwithin
      have hshorter : rest.length < (t :: tail).length := hwithin
      have hmore := items_alike active active' file ending ending' rest rest' hactive hrest hending
      cases i with
      | statement s =>
        cases i' with
        | statement s' =>
          have hs := Grammar.Item.statement.inj hi
          rw [items_of_statement hitem, items_of_statement hitem']
          exact hmore.bind fun ss ss' hss => .pure (by rw [SameStatements, List.map_cons, List.map_cons, hs, hss])
        | inclusion => cases hi
      | inclusion keyword path l =>
        cases i' with
        | statement => cases hi
        | inclusion keyword' path' l' =>
          obtain ⟨hkeyword, rfl, hl⟩ := Grammar.Item.inclusion.inj hi
          rw [items_of_inclusion hitem, items_of_inclusion hitem']
          refine enter_alike hactive hkeyword hl (fun i => ?_) hmore
          have hdeeper : (active ++ [ActiveFile.mk i.place (some l)]).map (ActiveFile.relocate f) =
              (active' ++ [ActiveFile.mk i.place (some l')]).map (ActiveFile.relocate f) := by
            simp [hactive, ActiveFile.relocate, hl]
          exact read_alike _ _ i.text i.text i.path.written hdeeper rfl rfl
    · rw [hitem] at hwithin
      have hfatal : fault.isFatal = fault'.isFatal := by
        rw [← fault.relocate_isFatal, hfault, fault'.relocate_isFatal]
      rw [items_of_refusal hitem, items_of_refusal hitem', hfatal]
      split
      · exact Journal.stop_alike hfault
      · refine (Journal.report_alike hfault).bind fun _ _ _ => ?_
        refine resume_alike hending hrest fun u after u' after' hu hu' hafter => ?_
        subst hu hu'
        have hshorter : after.length < (t :: tail).length := hwithin
        exact items_alike active active' file ending ending' after after' hactive hafter hending
    · rw [items_of_unreadable hitem, items_of_unreadable hitem']
      exact .throw rfl
termination_by ((idlePlaces env.tree active).length, 0, tokens.length)
decreasing_by
  all_goals first
    | exact Prod.Lex.left _ _ (idlePlaces_length_lt _ _)
    | decreasing_tactic

end

end Unit

/-- Texts with the same tokens, apart from locations, are the same program, apart from locations. -/
theorem Program.read_alike {env : Surroundings} {file text text' : String}
    (htokens : (tokenize file text).1.map (Token.relocate f) = (tokenize file text').1.map (Token.relocate f))
    (hending : (tokenize file text).2.relocate f = (tokenize file text').2.relocate f) :
    (Journal.alike f).Mirrors (fun p p' => p.relocate f = p'.relocate f) (Program.read env file text)
      (Program.read env file text') := by
  unfold Program.read
  split
  · exact .throw rfl
  · exact (Unit.read_alike _ _ text text' file rfl htokens hending).bind fun _ _ hss =>
      .pure (congrArg (fun ss => Program.mk ss file) hss)

end AvmAssembler
