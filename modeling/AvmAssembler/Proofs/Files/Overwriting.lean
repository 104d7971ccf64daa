import AvmAssembler.Files.FileTree

/-! # Overwriting files

A file that is put where a path leads is found by following that path again. The directories on the way are other
places, so nothing on the way changes.
-/

namespace AvmAssembler.FileTree

variable {tree : FileTree} {place : Place} {entry : FileEntry}

theorem lookup_map_replace (entries : List (Place × FileEntry)) (other : Place) :
    (entries.map fun e => if e.1 = place then (place, entry) else e).lookup other =
      if other = place ∧ entries.any (fun e => e.1 = place) then some entry else entries.lookup other := by
  induction entries with
  | nil => simp
  | cons e entries ih =>
    obtain ⟨key, stored⟩ := e
    by_cases hkey : key = place
    · subst hkey
      by_cases hother : other = key
      · simp [hother]
      · have hne : (other == key) = false := by simpa using hother
        simp [List.lookup_cons, hother, hne, ih]
    · by_cases hother : other = key
      · subst hother
        simp [hkey]
      · have hne : (other == key) = false := by simpa using hother
        simp only [List.map_cons, hkey, if_false, List.lookup_cons, hne, ih, List.any_cons, decide_false,
          Bool.false_or]

theorem lookup_put (tree : FileTree) (place other : Place) (entry : FileEntry) :
    (tree.put place entry).entries.lookup other =
      if other = place then some entry else tree.entries.lookup other := by
  unfold put
  split
  · rename_i hany
    rw [lookup_map_replace]
    simp [hany]
  · rename_i hany
    rw [List.lookup_append]
    by_cases hother : other = place
    · subst hother
      have hnone : tree.entries.lookup other = none := by
        refine List.lookup_eq_none_iff.2 fun e he => ?_
        have hne : ¬e.1 = other := by
          intro heq
          exact hany (List.any_eq_true.2 ⟨e, he, by simpa using heq⟩)
        simpa using fun h => hne h.symm
      simp [hnone]
    · have hne : (other == place) = false := by simpa using hother
      simp [List.lookup_cons, hother, hne]

@[simp] theorem put_directory : (tree.put place entry).directory = tree.directory := by
  unfold put
  split <;> rfl

@[simp] theorem put_closed : (tree.put place entry).closed = tree.closed := by
  unfold put
  split <;> rfl

theorem entryAt_put_self : (tree.put place entry).entryAt place = some entry := by
  simp [entryAt, lookup_put]

theorem entryAt_put_of_ne {other : Place} (h : other ≠ place) :
    (tree.put place entry).entryAt other = tree.entryAt other := by
  simp [entryAt, lookup_put, h]

theorem entryAt_of_lookUp_vacant {directory : Place} {part : String} (h : tree.lookUp directory part = .vacant place) :
    tree.entryAt place = none := by
  unfold lookUp at h
  repeat' split at h
  all_goals cases h
  assumption

theorem entryAt_of_vacant {parts : List String} {directory : Place} (h : tree.follow directory parts = .vacant place) :
    tree.entryAt place = none := by
  induction parts generalizing directory with
  | nil => cases h
  | cons part rest ih =>
    unfold follow at h
    split at h
    · exact ih h
    · split at h <;> cases h
    · split at h
      · cases h
        exact entryAt_of_lookUp_vacant ‹_›
      · cases h
    · cases h

/-- The directories on the way are passed as before. -/
theorem lookUp_put_of_directory {directory next : Place} {part : String} (hplace : tree.entryAt place ≠ some .directory)
    (h : tree.lookUp directory part = .directory next) :
    (tree.put place entry).lookUp directory part = .directory next := by
  unfold lookUp at h ⊢
  rw [put_closed]
  repeat' split at h
  · cases h
  · rw [if_neg ‹_›, if_pos ‹_›, h]
  · rw [if_neg ‹_›, if_neg ‹_›, if_pos ‹_›, h]
  · cases h
  · rename_i hentry
    have hne : directory ++ [part] ≠ place := by
      rintro rfl
      exact hplace hentry
    rw [if_neg ‹_›, if_neg ‹_›, if_neg ‹_›, if_neg ‹_›, entryAt_put_of_ne hne, hentry]
    exact h
  · cases h
  · cases h

theorem lookUp_named {directory : Place} {part : String}
    (h : (∃ old x, tree.lookUp directory part = .file place old x) ∨ tree.lookUp directory part = .vacant place) :
    place = directory ++ [part] ∧ tree.closed.contains directory ≠ true ∧ part ≠ ".." ∧ part ≠ "." ∧
      ¬nameLimit < part.utf8ByteSize := by
  unfold lookUp at h
  repeat' split at h
  all_goals rcases h with ⟨old, x, h⟩ | h
  all_goals cases h
  all_goals exact ⟨rfl, ‹_›, ‹_›, ‹_›, ‹_›⟩

theorem lookUp_put_self {content : List UInt8} {executable : Bool} {directory : Place} {part : String}
    (h : (∃ old x, tree.lookUp directory part = .file place old x) ∨ tree.lookUp directory part = .vacant place) :
    (tree.put place (.file content executable)).lookUp directory part = .file place content executable := by
  obtain ⟨rfl, hclosed, hup, hhere, hshort⟩ := lookUp_named h
  simp only [lookUp, put_closed, hclosed, hup, hhere, hshort, if_false, entryAt_put_self, Bool.false_eq_true]

/-- A path that leads to a file or to nothing leads to the file that is put there. -/
theorem follow_put {content : List UInt8} {executable : Bool} {parts : List String} {directory : Place}
    (h : (∃ old x, tree.follow directory parts = .file place old x) ∨
      tree.follow directory parts = .vacant place) :
    (tree.put place (.file content executable)).follow directory parts = .file place content executable := by
  have hplace : tree.entryAt place ≠ some .directory := by
    rcases h with ⟨old, x, h⟩ | h
    · simp [entryAt_of_follow h]
    · simp [entryAt_of_vacant h]
  induction parts generalizing directory with
  | nil => simp [follow] at h
  | cons part rest ih =>
    unfold follow at h ⊢
    cases hpart : tree.lookUp directory part with
    | directory next =>
      rw [hpart] at h
      rw [lookUp_put_of_directory hplace hpart]
      exact ih h
    | file found old x =>
      rw [hpart] at h
      cases rest with
      | nil =>
        obtain rfl : found = place := by simpa using h
        rw [lookUp_put_self (.inl ⟨old, x, hpart⟩)]
        rfl
      | cons => simp at h
    | vacant found =>
      rw [hpart] at h
      cases rest with
      | nil =>
        obtain rfl : found = place := by simpa using h
        rw [lookUp_put_self (.inr hpart)]
        rfl
      | cons => simp at h
    | blocked e =>
      rw [hpart] at h
      simp at h

/-- A path that can be written leads to the file that is put at its place. -/
theorem target_put {path : Path} {marked : Bool} (h : tree.openForWriting path = .ok (place, marked))
    (content : List UInt8) (executable : Bool) :
    (tree.put place (.file content executable)).target path = .file place content executable := by
  have htarget : (∃ old x, tree.target path = .file place old x) ∨ tree.target path = .vacant place := by
    unfold openForWriting at h
    split at h
    · rename_i htarget
      cases h
      exact .inl ⟨_, _, htarget⟩
    · cases h
    · rename_i htarget
      cases h
      exact .inr htarget
    · cases h
  unfold target base at htarget ⊢
  rw [put_directory]
  split at htarget
  · simp at htarget
  split at htarget
  · simp at htarget
  rw [if_neg ‹_›, if_neg ‹_›]
  exact follow_put htarget

/-- A file put where a path can be written is what is read from the path afterwards. -/
theorem readBytes_put {path : Path} {marked : Bool} (h : tree.openForWriting path = .ok (place, marked))
    (content : List UInt8) (executable : Bool) :
    (tree.put place (.file content executable)).readBytes path = .ok content := by
  simp only [readBytes, target_put h]

end AvmAssembler.FileTree
