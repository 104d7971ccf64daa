import AvmAssembler.Proofs.Files.Naming
import AvmAssembler.Proofs.Source.Composition

/-! # Files that lead back to themselves

Under whatever names a file is read, its inclusions find the same files, if they find any. So if a file led back to
itself, it would do so again and again, and would be refused in the end: a file that is read without faults never leads back to itself, whether
or not it is known to be under way.
-/

namespace AvmAssembler.Unit

variable {env : Surroundings}

/-- A path that starts with a dot is seen from the directory of the source, whatever its name. -/
theorem candidates_of_dot {path : String} (hdot : path.toList.head? = some '.') (source : String)
    (searchPaths : List String) :
    FileTree.candidates path source searchPaths = [(Path.ofString source).parent.join (Path.ofString path)] := by
  have hinput : (if source = FileTree.inputName then {} else (Path.ofString source).parent : Path) =
      (Path.ofString source).parent := by
    split
    · subst_vars
      decide
    · rfl
  simp only [FileTree.candidates, hdot, if_true, hinput]

theorem follow_of_sought {p : Path} (hp : p.WellFormed) {place : Place} {content : List UInt8} {x : Bool}
    (h : env.tree.target p = .file place content x) {path : String} (hdot : path.toList.head? = some '.')
    {r : Path} {found : Place × List UInt8} (hfound : sought? env p.written path = .ok (some (r, found))) :
    ∃ x, env.tree.follow place.dropLast (Path.ofString path).parts = .file found.1 found.2 x := by
  have hroot : (Path.ofString path).root = "" := by
    obtain ⟨cs, hcs⟩ := List.head?_eq_some_iff.1 hdot
    rw [Path.ofString_eq, hcs]
    rfl
  obtain ⟨hfind, y, htarget⟩ := sought?_eq_some.1 hfound
  have hr := (FileTree.find?_eq_some hfind).1
  rw [candidates_of_dot hdot, hp.ofString_written] at hr
  rw [List.mem_singleton.1 hr, FileTree.target_parent_join h hroot] at htarget
  split at htarget
  · cases htarget
  split at htarget
  · cases htarget
  exact ⟨y, htarget⟩

/-- Under whatever names a file is read, what an inclusion in it finds is the same. -/
theorem sought?_same_place {p p' : Path} (hp : p.WellFormed) (hp' : p'.WellFormed) {place : Place}
    {content content' : List UInt8} {x x' : Bool} (h : env.tree.target p = .file place content x)
    (h' : env.tree.target p' = .file place content' x') {path : String} {r r' : Path}
    {found found' : Place × List UInt8} (hfound : sought? env p.written path = .ok (some (r, found)))
    (hfound' : sought? env p'.written path = .ok (some (r', found'))) : found' = found := by
  by_cases hdot : path.toList.head? = some '.'
  · obtain ⟨y, hfollow⟩ := follow_of_sought hp h hdot hfound
    obtain ⟨y', hfollow'⟩ := follow_of_sought hp' h' hdot hfound'
    rw [hfollow] at hfollow'
    obtain ⟨hplace, hcontent, -⟩ := Target.file.inj hfollow'
    exact Prod.ext hplace.symm hcontent.symm
  · have hcandidates : FileTree.candidates path p'.written env.searchPaths =
        FileTree.candidates path p.written env.searchPaths := by simp only [FileTree.candidates, hdot, if_false]
    rw [sought?, FileTree.find?, hcandidates, ← FileTree.find?, ← sought?, hfound] at hfound'
    cases hfound'
    rfl

/-- Two paths to the same place lead to the same content. -/
theorem content_eq_of_target {tree : FileTree} {p p' : Path} {place : Place} {content content' : List UInt8}
    {x x' : Bool} (h : tree.target p = .file place content x) (h' : tree.target p' = .file place content' x') :
    content = content' := by
  have heq := (FileTree.entryAt_of_target h).symm.trans (FileTree.entryAt_of_target h')
  simp only [Option.some.injEq, FileEntry.file.injEq] at heq
  exact heq.1

/-- A text falls into the same items in another file. -/
theorem FallsInto.inFile {file file' text : String} {is is' : List Grammar.Item} (h : FallsInto file text is)
    (h' : FallsInto file' text is') : is' = is.map (Grammar.Item.relocate (Location.inFile file')) := by
  obtain ⟨l, hl, hitems⟩ := h
  obtain ⟨l', hl', hitems'⟩ := h'
  have hmoved := hitems.relocate (Location.inFile file')
  rw [tokenize_inFile_eq file file' text, relocateStream, hl] at hl' hitems'
  cases hl'
  exact hitems'.unique hmoved

/-- What is included is found, and it is not being read. -/
theorem Compose.exists_sought {active : List Place} {file path : String} {is : List Grammar.Item} {parts : List Part}
    {keyword location : Location} (h : Compose env active file is parts)
    (hmem : .inclusion keyword path location ∈ is) :
    ∃ found, sought? env file path = .ok (some found) ∧ found.2.1 ∉ active := by
  induction h with
  | nil => cases hmem
  | statement _ ih =>
    rcases List.mem_cons.1 hmem with heq | hmem
    · cases heq
    · exact ih hmem
  | inclusion hsought hidle _ _ _ _ _ ih =>
    rcases List.mem_cons.1 hmem with heq | hmem
    · cases heq
      exact ⟨_, hsought, hidle⟩
    · exact ih hmem

/-- Whenever the file at the place is included, it has an inclusion that finds nothing but the other one. -/
def Includes (env : Surroundings) (place other : Place) : Prop :=
  ∀ ⦃file path text : String⦄ ⦃r : Path⦄ ⦃content : List UInt8⦄ ⦃is : List Grammar.Item⦄,
    sought? env file path = .ok (some (r, place, content)) → FileTree.textOf content = .ok text →
    FallsInto r.written text is → ∃ keyword path' location, .inclusion keyword path' location ∈ is ∧
      ∀ found, sought? env r.written path' = .ok (some found) → found.2.1 = other

/-- A file that includes one that is being read cannot be met, so it may as well be under way. -/
theorem Compose.under {active : List Place} {file : String} {is : List Grammar.Item} {parts : List Part}
    {place other : Place} (h : Compose env active file is parts) (hincludes : Includes env place other)
    (hother : other ∈ active) : Compose env (place :: active) file is parts := by
  induction h with
  | nil => exact .nil
  | statement _ ih => exact .statement (ih hother)
  | inclusion hsought hidle htext hfalls hinner _ ihinner ih =>
    refine .inclusion hsought ?_ htext hfalls (ihinner (List.mem_append_left _ hother)) (ih hother)
    intro hmem
    rcases List.mem_cons.1 hmem with rfl | hmem
    · obtain ⟨_, _, _, hmem, hfinds⟩ := hincludes hsought htext hfalls
      obtain ⟨found, hfound, hidle'⟩ := hinner.exists_sought hmem
      exact hidle' (hfinds found hfound ▸ List.mem_append_left _ hother)
    · exact hidle hmem

/-- A file that is read without faults does not lead back to itself. -/
theorem ConsistsOf.under {p : Path} (hp : p.WellFormed) {place : Place} {content : List UInt8} {x : Bool}
    {text : String} (htarget : env.tree.target p = .file place content x) (htext : FileTree.textOf content = .ok text)
    {parts : List Part} (h : ConsistsOf env [] p.written text parts) : ConsistsOf env [place] p.written text parts := by
  obtain ⟨all, hfalls, hparts⟩ := h
  have hincludes : ∀ {keyword location : Location} {path : String} {found : Path × Place × List UInt8},
      .inclusion keyword path location ∈ all → sought? env p.written path = .ok (some found) →
      Includes env place found.2.1 := by
    intro keyword location path found hmem hfound file path' text' r content' is hsought htext' hfalls'
    obtain ⟨hfind, x', htarget'⟩ := sought?_eq_some.1 hsought
    obtain rfl := content_eq_of_target htarget htarget'
    obtain rfl : text = text' := Except.ok.inj (htext.symm.trans htext')
    rw [hfalls.inFile hfalls']
    refine ⟨_, path, _, List.mem_map_of_mem hmem, fun found' hfound' => ?_⟩
    have hsame := sought?_same_place hp (FileTree.find?_wellFormed hfind) htarget htarget' hfound hfound'
    exact congrArg Prod.fst hsame
  refine ⟨all, hfalls, ?_⟩
  -- One item after another, each of them an item of the file.
  suffices hall : ∀ {is : List Grammar.Item} {parts : List Part}, (∀ i ∈ is, i ∈ all) →
      Compose env [] p.written is parts → Compose env [place] p.written is parts from hall (fun _ h => h) hparts
  intro is
  induction is with
  | nil =>
    intro parts _ h
    cases h
    exact .nil
  | cons i is ih =>
    intro parts hmem h
    have hrest : ∀ i ∈ is, i ∈ all := fun j hj => hmem j (List.mem_cons_of_mem i hj)
    cases h with
    | statement h => exact .statement (ih hrest h)
    | inclusion hsought hidle htext' hfalls' hinner h =>
      have hreturns := hincludes (hmem _ List.mem_cons_self) hsought
      refine .inclusion hsought ?_ htext' hfalls' (hinner.under hreturns (by simp)) (ih hrest h)
      intro hself
      obtain rfl := List.mem_singleton.1 hself
      obtain ⟨_, _, _, hmem', hfinds⟩ := hreturns hsought htext' hfalls'
      obtain ⟨found, hfound, hidle'⟩ := hinner.exists_sought hmem'
      exact hidle' (by simp [hfinds found hfound])

end AvmAssembler.Unit
