import AvmAssembler.Proofs.Outcome
import AvmAssembler.Source.Unit

/-! # Files to be included

Which file an inclusion means depends on its path and on the name of the unit. Whether the file is read depends on the
places of the files that are being read, and on its content.
-/

namespace AvmAssembler.Unit

variable {env : Surroundings} {file path : String} {active : List ActiveFile} {l : Location}

/-- The file that is meant by an inclusion: its path, its place and its content. -/
def sought? (env : Surroundings) (file path : String) : Except SearchError (Option (Path × Place × List UInt8)) :=
  (env.tree.find? path file env.searchPaths).map fun found? => found?.bind fun resolved =>
    match env.tree.target resolved with
    | .file place content _ => some (resolved, place, content)
    | _ => none

theorem sought?_eq_some {r : Path} {place : Place} {content : List UInt8} :
    sought? env file path = .ok (some (r, place, content)) ↔
      env.tree.find? path file env.searchPaths = .ok (some r) ∧ ∃ x, env.tree.target r = .file place content x := by
  unfold sought?
  rcases env.tree.find? path file env.searchPaths with e | _ | resolved
  · simp [Except.map]
  · simp [Except.map]
  · simp only [Except.map, Option.bind_some, Except.ok.injEq, Option.some.injEq]
    constructor
    · intro h
      split at h
      · cases h
        exact ⟨rfl, _, ‹_›⟩
      · cases h
    · rintro ⟨rfl, x, htarget⟩
      rw [htarget]

def Inclusion.parts {tree : FileTree} (i : Inclusion tree active) : Path × String × Place :=
  (i.path, i.text, i.place)

/-- What an inclusion comes to. -/
def opened (env : Surroundings) (file : String) (active : List ActiveFile) (path : String) (l : Location) :
    Except Obstacle (Path × String × Place) :=
  match sought? env file path with
  | .error e => .error (.search e)
  | .ok none => .error (.fault (inclusionFault path l .notFound [] env.searchPaths))
  | .ok (some (resolved, place, content)) =>
    match active.find? fun a => a.place = place with
    | some a =>
      .error (.fault (inclusionFault path l .circular
        (a.included.toList.map fun l => (some l, s!"'{path}' first included here"))))
    | none =>
      match FileTree.textOf content with
      | .error e => .error (.fault (inclusionFault path l (.undecodable e)))
      | .ok text => .ok (resolved, text, place)

theorem open?_parts (active : List ActiveFile) :
    (open? env file active path l).map Inclusion.parts = opened env file active path l := by
  unfold open? opened
  split
  · simp [sought?, *, Except.map]
  · simp [sought?, *, Except.map]
  · rename_i resolved hfind
    split
    · rename_i place content x htarget
      have hsought : sought? env file path = .ok (some (resolved, place, content)) := by
        simp [sought?, hfind, htarget, Except.map]
      simp only [hsought]
      split <;> rename_i ha
      · simp [ha, Except.map]
      · simp only [ha]
        split <;> simp [*, Except.map, Inclusion.parts]
    · simp [sought?, *, Except.map]

/-- A file is opened if its place is none of those being read and its content is text. -/
theorem opened_eq_ok {text : String} {resolved : Path} {place : Place} :
    opened env file active path l = .ok (resolved, text, place) ↔
      ∃ content, sought? env file path = .ok (some (resolved, place, content)) ∧ place ∉ active.map ActiveFile.place ∧
        FileTree.textOf content = .ok text := by
  unfold opened
  match sought? env file path with
  | .error e => simp
  | .ok none => simp
  | .ok (some (path', place', content)) =>
    cases hactive : active.find? fun a => a.place = place' with
    | some a =>
      have hmem : place' ∈ active.map ActiveFile.place :=
        List.mem_map.2 ⟨a, List.mem_of_find?_eq_some hactive, by simpa using List.find?_some hactive⟩
      simp only [hactive, reduceCtorEq, false_iff, Except.ok.injEq, Option.some.injEq, Prod.mk.injEq]
      rintro ⟨_, ⟨-, rfl, -⟩, hidle, -⟩
      exact hidle hmem
    | none =>
      have hidle : place' ∉ active.map ActiveFile.place := by simpa using hactive
      cases htext : FileTree.textOf content with
      | error e =>
        simp only [hactive, htext, reduceCtorEq, false_iff, Except.ok.injEq, Option.some.injEq, Prod.mk.injEq]
        rintro ⟨_, ⟨-, -, rfl⟩, -, hok⟩
        cases htext.symm.trans hok
      | ok text' =>
        simp only [hactive, htext, Except.ok.injEq, Option.some.injEq, Prod.mk.injEq]
        constructor
        · rintro ⟨rfl, rfl, rfl⟩
          exact ⟨content, ⟨rfl, rfl, rfl⟩, hidle, htext⟩
        · rintro ⟨_, ⟨rfl, rfl, rfl⟩, -, hok⟩
          exact ⟨rfl, Except.ok.inj (htext.symm.trans hok), rfl⟩

theorem open?_eq_ok_sought {i : Inclusion env.tree active} (h : open? env file active path l = .ok i) :
    ∃ content, sought? env file path = .ok (some (i.path, i.place, content)) ∧ i.place ∉ active.map ActiveFile.place ∧
      FileTree.textOf content = .ok i.text := by
  apply opened_eq_ok.1
  rw [← open?_parts, h]
  rfl

theorem exists_open?_eq_ok {text : String} {resolved : Path} {place : Place} {content : List UInt8}
    (hsought : sought? env file path = .ok (some (resolved, place, content))) (hidle : place ∉ active.map ActiveFile.place)
    (htext : FileTree.textOf content = .ok text) :
    ∃ i, open? env file active path l = .ok i ∧ i.path = resolved ∧ i.text = text ∧ i.place = place := by
  have hopened := (opened_eq_ok (l := l)).2 ⟨content, hsought, hidle, htext⟩
  rw [← open?_parts] at hopened
  cases h : open? env file active path l with
  | error obstacle =>
    rw [h] at hopened
    cases hopened
  | ok i =>
    rw [h] at hopened
    cases hopened
    exact ⟨i, rfl, rfl, rfl, rfl⟩

theorem open?_eq_error_iff {obstacle : Obstacle} :
    open? env file active path l = .error obstacle ↔ opened env file active path l = .error obstacle := by
  rw [← open?_parts]
  cases open? env file active path l <;> simp [Except.map]

/-- The file of an inclusion that is found is refused as circular if and only if it is under way. -/
theorem open?_circular_iff {r : Path} {place : Place} {content : List UInt8}
    (hsought : sought? env file path = .ok (some (r, place, content))) :
    (∃ notes, open? env file active path l = .error (.fault (inclusionFault path l .circular notes))) ↔
      place ∈ active.map ActiveFile.place := by
  simp only [open?_eq_error_iff, opened, hsought]
  cases hactive : active.find? fun a => a.place = place with
  | some a =>
    have hmem : place ∈ active.map ActiveFile.place :=
      List.mem_map.2 ⟨a, List.mem_of_find?_eq_some hactive, by simpa using List.find?_some hactive⟩
    simp only [hmem, iff_true, Except.error.injEq, Obstacle.fault.injEq]
    exact ⟨_, rfl⟩
  | none =>
    have hidle : place ∉ active.map ActiveFile.place := by simpa using hactive
    simp only [hidle, iff_false]
    rintro ⟨notes, hcircular⟩
    cases htext : FileTree.textOf content with
    | error e =>
      rw [htext] at hcircular
      cases hcircular
    | ok text =>
      rw [htext] at hcircular
      cases hcircular

/-- An inclusion meets no search that is cut short but that for its own file. -/
theorem open?_eq_search_iff {e : SearchError} :
    open? env file active path l = .error (.search e) ↔ env.tree.find? path file env.searchPaths = .error e := by
  rw [open?_eq_error_iff, opened, sought?]
  cases env.tree.find? path file env.searchPaths with
  | error e' => simp [Except.map]
  | ok found? =>
    cases found? with
    | none => simp [Except.map]
    | some r =>
      simp only [Except.map, Option.bind_some]
      repeat' split
      all_goals simp_all

end AvmAssembler.Unit
