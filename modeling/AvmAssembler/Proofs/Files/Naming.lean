import AvmAssembler.Files.FileTree
import AvmAssembler.Proofs.Outcome

/-! # Paths and the files they lead to

A path that was read from text, or put together from such paths, is read back from its written form. A file that was
found can therefore be found again by the name it is given. Its place is the one that the path spells, seen from the
working directory, so all paths to a file spell the same place. A search has an answer unless a path is too long or
passes a closed directory.
-/

namespace AvmAssembler

namespace Path

/-! ## Pieces of text -/

theorem pieces_cons {cs piece : List Char} {rest : List (List Char)} (h : pieces cs = piece :: rest) (c : Char) :
    pieces (c :: cs) = if c = '/' then [] :: piece :: rest else (c :: piece) :: rest := by
  rw [pieces, h]

theorem exists_pieces (cs : List Char) : ∃ piece rest, pieces cs = piece :: rest := by
  induction cs with
  | nil => exact ⟨[], [], rfl⟩
  | cons c cs ih =>
    obtain ⟨piece, rest, hpieces⟩ := ih
    rw [pieces_cons hpieces]
    split
    · exact ⟨_, _, rfl⟩
    · exact ⟨_, _, rfl⟩

theorem pieces_slash (cs : List Char) : pieces ('/' :: cs) = [] :: pieces cs := by
  obtain ⟨piece, rest, hpieces⟩ := exists_pieces cs
  rw [pieces_cons hpieces, if_pos rfl, hpieces]

section Pieces

variable {w : List Char} (hw : '/' ∉ w)

include hw

theorem pieces_append_slash (cs : List Char) : pieces (w ++ '/' :: cs) = w :: pieces cs := by
  induction w with
  | nil => exact pieces_slash cs
  | cons c w ih =>
    obtain ⟨hc, hw⟩ : '/' ≠ c ∧ '/' ∉ w := by simpa using hw
    rw [List.cons_append, pieces_cons (ih hw), if_neg hc.symm]

theorem pieces_of_no_slash : pieces w = [w] := by
  induction w with
  | nil => rfl
  | cons c w ih =>
    obtain ⟨hc, hw⟩ : '/' ≠ c ∧ '/' ∉ w := by simpa using hw
    rw [pieces_cons (ih hw), if_neg hc.symm]

end Pieces

theorem slash_not_mem_pieces {cs piece : List Char} (h : piece ∈ pieces cs) : '/' ∉ piece := by
  induction cs generalizing piece with
  | nil =>
    obtain rfl : piece = [] := List.mem_singleton.1 h
    simp
  | cons c cs ih =>
    obtain ⟨first, rest, hpieces⟩ := exists_pieces cs
    rw [hpieces] at ih
    rw [pieces_cons hpieces] at h
    split at h
    · rcases List.mem_cons.1 h with rfl | h
      · simp
      · exact ih h
    · rename_i hc
      rcases List.mem_cons.1 h with rfl | h
      · have hfirst : '/' ∉ first := ih List.mem_cons_self
        simpa [Ne.symm hc] using hfirst
      · exact ih (List.mem_cons_of_mem first h)

/-! ## Paths as they are read -/

/-- The parts that some characters name. -/
def named (cs : List Char) : List String :=
  ((pieces cs).map String.ofList).filter fun p => p ≠ "" && p ≠ "."

theorem ofString_eq (s : String) : ofString s = ⟨rootOf s.toList, named s.toList⟩ := rfl

/-- The path has one of the roots there are, and none of its parts is empty, stays where it is, or is divided. -/
structure WellFormed (p : Path) : Prop where
  root : p.root = "" ∨ p.root = "/" ∨ p.root = "//"
  parts : ∀ part ∈ p.parts, part ≠ "" ∧ part ≠ "." ∧ '/' ∉ part.toList

theorem ofString_wellFormed (s : String) : (ofString s).WellFormed where
  root := by
    unfold ofString rootOf
    dsimp only
    split <;> simp
  parts := by
    intro part hpart
    simp only [ofString, List.mem_filter, List.mem_map, Bool.and_eq_true, decide_eq_true_eq] at hpart
    obtain ⟨⟨piece, hpiece, rfl⟩, hne, hdot⟩ := hpart
    exact ⟨hne, hdot, by simpa using slash_not_mem_pieces hpiece⟩

namespace WellFormed

variable {p q : Path}

theorem empty : ({} : Path).WellFormed := ⟨.inl rfl, by simp⟩

theorem parent (h : p.WellFormed) : p.parent.WellFormed :=
  ⟨h.root, fun part hpart => h.parts part (List.dropLast_subset _ hpart)⟩

theorem join (hp : p.WellFormed) (hq : q.WellFormed) : (p.join q).WellFormed := by
  unfold Path.join
  split
  · refine ⟨hp.root, fun part hpart => ?_⟩
    rcases List.mem_append.1 hpart with h | h
    · exact hp.parts part h
    · exact hq.parts part h
  · exact hq

theorem pieces_intercalate {parts : List String} (hne : parts ≠ []) (h : ∀ part ∈ parts, '/' ∉ part.toList) :
    pieces ("/".intercalate parts).toList = parts.map String.toList := by
  match parts with
  | [part] => simp [pieces_of_no_slash (h part (by simp))]
  | part :: next :: parts =>
    have hrest := pieces_intercalate (List.cons_ne_nil next parts) fun q hq => h q (List.mem_cons_of_mem part hq)
    have hslash := pieces_append_slash (h part (by simp)) ("/".intercalate (next :: parts)).toList
    rw [hrest] at hslash
    rw [String.intercalate_cons_cons]
    simpa using hslash

theorem rootOf_append {root : String} (hroot : root = "" ∨ root = "/" ∨ root = "//") {c : Char} (hc : c ≠ '/')
    (cs : List Char) : rootOf (root.toList ++ c :: cs) = root := by
  rcases hroot with rfl | rfl | rfl
  · simp [rootOf, hc]
  · simp [rootOf, hc]
  · simp [rootOf, hc]

theorem named_append_root {root : String} (hroot : root = "" ∨ root = "/" ∨ root = "//") (cs : List Char) :
    named (root.toList ++ cs) = named cs := by
  have hslash : ∀ cs, named ('/' :: cs) = named cs := fun cs => by simp [named, pieces_slash]
  rcases hroot with rfl | rfl | rfl
  · rfl
  · exact hslash cs
  · exact (hslash ('/' :: cs)).trans (hslash cs)

theorem ofString_written (h : p.WellFormed) : ofString p.written = p := by
  obtain ⟨root, parts⟩ := p
  have hroot : root = "" ∨ root = "/" ∨ root = "//" := h.root
  cases parts with
  | nil => rcases hroot with rfl | rfl | rfl <;> decide
  | cons part parts =>
    have hparts : ∀ q ∈ part :: parts, '/' ∉ q.toList := fun q hq => (h.parts q hq).2.2
    have hpieces := pieces_intercalate (List.cons_ne_nil part parts) hparts
    have hpart : part.toList ≠ [] := by simpa using (h.parts part (by simp)).1
    -- The written parts start with a character of the first of them.
    obtain ⟨c, cs, hbody, hc⟩ : ∃ c cs, ("/".intercalate (part :: parts)).toList = c :: cs ∧ c ≠ '/' := by
      cases hbody : ("/".intercalate (part :: parts)).toList with
      | nil =>
        rw [hbody] at hpieces
        exact absurd (List.cons.inj hpieces).1.symm hpart
      | cons c cs =>
        refine ⟨c, cs, rfl, ?_⟩
        rintro rfl
        rw [hbody, pieces_slash] at hpieces
        exact absurd (List.cons.inj hpieces).1.symm hpart
    have hwritten : (Path.mk root (part :: parts)).written.toList = root.toList ++ c :: cs := by
      simp [written, ← hbody]
    have hkept : ((part :: parts).filter fun p => p ≠ "" && p ≠ ".") = part :: parts := by
      rw [List.filter_eq_self]
      intro q hq
      simp [(h.parts q hq).1, (h.parts q hq).2.1]
    rw [hbody] at hpieces
    rw [ofString_eq, hwritten, rootOf_append hroot hc, named_append_root hroot, named, hpieces, List.map_map]
    simpa [Function.comp_def] using hkept

end WellFormed

end Path

/-! ## Searching -/

section

variable {α ε : Type} {p : α → Except ε Bool} {l : List α} {a : α} {e : ε}

theorem findM?_eq_some (h : l.findM? p = .ok (some a)) : a ∈ l ∧ p a = .ok true := by
  induction l with
  | nil => cases h
  | cons b l ih =>
    obtain ⟨found, hb, hrest⟩ := bind_eq_ok.1 h
    cases found with
    | true =>
      cases hrest
      exact ⟨List.mem_cons_self, hb⟩
    | false => exact ⟨List.mem_cons_of_mem b (ih hrest).1, (ih hrest).2⟩

theorem findM?_eq_error (h : l.findM? p = .error e) : ∃ a ∈ l, p a = .error e := by
  induction l with
  | nil => cases h
  | cons b l ih =>
    rcases bind_eq_error.1 h with hb | ⟨found, hb, hrest⟩
    · exact ⟨b, List.mem_cons_self, hb⟩
    · cases found with
      | true => cases hrest
      | false =>
        obtain ⟨a, ha, hpa⟩ := ih hrest
        exact ⟨a, List.mem_cons_of_mem b ha, hpa⟩

end

namespace FileTree

variable {tree : FileTree} {path source : String} {searchPaths : List String} {p r : Path} {place : Place} {e : SearchError}

theorem place?_eq_some : tree.place? p = .ok (some place) ↔ ∃ content x, tree.target p = .file place content x := by
  unfold place?
  cases htarget : tree.target p with
  | file => simp
  | blocked e => cases he : e.isAbsence <;> simp [he]
  | directory | vacant => simp

/-- A search is cut short at a path that is too long, or that passes a directory in which nothing may be looked up. -/
theorem place?_eq_error : tree.place? p = .error e ↔
    e.path = p ∧ tree.target p = .blocked e.error ∧ (e.error = .nameTooLong ∨ e.error = .accessDenied) := by
  obtain ⟨q, error⟩ := e
  unfold place?
  cases htarget : tree.target p with
  | file | directory | vacant => simp
  | blocked e => cases e <;> cases error <;> simp [FileError.isAbsence, eq_comm]

theorem isFile_eq_true : tree.isFile p = .ok true ↔ ∃ place content x, tree.target p = .file place content x := by
  simp only [← place?_eq_some, isFile]
  rcases tree.place? p with _ | _ | _ <;> simp [Except.map]

theorem isFile_eq_error : tree.isFile p = .error e ↔ tree.place? p = .error e := by
  unfold isFile
  cases tree.place? p <;> simp [Except.map]

theorem find?_eq_some (h : tree.find? path source searchPaths = .ok (some r)) :
    r ∈ candidates path source searchPaths ∧ ∃ place content x, tree.target r = .file place content x :=
  ⟨(findM?_eq_some h).1, isFile_eq_true.1 (findM?_eq_some h).2⟩

theorem find?_eq_error (h : tree.find? path source searchPaths = .error e) :
    e.path ∈ candidates path source searchPaths ∧ tree.place? e.path = .error e := by
  obtain ⟨p, hp, hfile⟩ := findM?_eq_error h
  have hplace := isFile_eq_error.1 hfile
  obtain rfl := (place?_eq_error.1 hplace).1
  exact ⟨hp, hplace⟩

theorem candidates_wellFormed (h : p ∈ candidates path source searchPaths) : p.WellFormed := by
  have hpath := Path.ofString_wellFormed path
  have hbase : (if source = inputName then {} else (Path.ofString source).parent : Path).WellFormed := by
    split
    · exact .empty
    · exact (Path.ofString_wellFormed source).parent
  unfold candidates at h
  dsimp only at h
  split at h
  · obtain rfl := List.mem_singleton.1 h
    exact hbase.join hpath
  · rcases List.mem_cons.1 h with rfl | hmem
    · exact hpath
    · obtain ⟨d, -, rfl⟩ := List.mem_map.1 hmem
      exact (Path.ofString_wellFormed d).join hpath

theorem find?_wellFormed (h : tree.find? path source searchPaths = .ok (some r)) : r.WellFormed :=
  candidates_wellFormed (find?_eq_some h).1

end FileTree

/-! ## The place of a file -/

namespace FileTree

variable {tree : FileTree} {parts : List String} {directory place : Place} {content : List UInt8} {executable : Bool}

/-- Where a part of a path leads by its spelling. -/
def enter (directory : Place) (part : String) : Place :=
  if part = ".." then directory.dropLast else if part = "." then directory else directory ++ [part]

/-- The place that a path spells, whether or not there is anything. -/
def resolve (tree : FileTree) (path : Path) : Place :=
  path.parts.foldl enter (tree.base path)

theorem lookUp_directory {part : String} (h : tree.lookUp directory part = .directory place) :
    place = enter directory part := by
  unfold lookUp at h
  unfold enter
  repeat' split at h
  all_goals cases h
  · rw [if_pos ‹_›]
  · rw [if_neg ‹_›, if_pos ‹_›]
  · rw [if_neg ‹_›, if_neg ‹_›]

theorem lookUp_file {part : String} (h : tree.lookUp directory part = .file place content executable) :
    place = directory ++ [part] ∧ place = enter directory part := by
  unfold lookUp at h
  unfold enter
  repeat' split at h
  all_goals cases h
  rw [if_neg ‹_›, if_neg ‹_›]
  exact ⟨rfl, rfl⟩

theorem follow_file (h : tree.follow directory parts = .file place content executable) :
    place = parts.foldl enter directory := by
  induction parts generalizing directory with
  | nil => cases h
  | cons part rest ih =>
    unfold follow at h
    split at h
    · rw [List.foldl_cons, ← lookUp_directory ‹_›]
      exact ih h
    · split at h
      · rename_i hrest
        cases h
        rw [List.isEmpty_iff.1 hrest]
        exact (lookUp_file ‹_›).2
      · cases h
    · split at h <;> cases h
    · cases h

/-- A file is found at the place that its path spells. So paths that spell the same place lead to the same file. -/
theorem target_file {path : Path} (h : tree.target path = .file place content executable) :
    place = tree.resolve path := by
  unfold target at h
  repeat' split at h
  · cases h
  · cases h
  · exact follow_file h

/-- No path that is a single name leads anywhere if no file can have a name of that length. -/
theorem target_of_long_name {name : String} (hopen : tree.directory ∉ tree.closed) (hslash : '/' ∉ name.toList)
    (hnull : '\x00' ∉ name.toList) (hlong : nameLimit < name.utf8ByteSize) :
    tree.target (Path.ofString name) = .blocked .nameTooLong := by
  have hne {short : String} (hshort : short.utf8ByteSize ≤ nameLimit) : name ≠ short := by
    rintro rfl
    omega
  have hempty : name ≠ "" := hne (by decide)
  have hdot : name ≠ "." := hne (by decide)
  have hup : name ≠ ".." := hne (by decide)
  have hwellFormed : (Path.mk "" [name]).WellFormed := ⟨.inl rfl, by simp [hempty, hdot, hslash]⟩
  have hwritten : (Path.mk "" [name]).written = name := by simp [Path.written]
  have hname : Path.ofString name = ⟨"", [name]⟩ := by simpa [hwritten] using hwellFormed.ofString_written
  have hlookUp : tree.lookUp tree.directory name = .blocked .nameTooLong := by
    simp [lookUp, hopen, hup, hdot, hlong]
  rw [hname, target, if_neg (by simpa [Path.hasNull] using hnull)]
  split
  · rfl
  · simp [base, follow, hlookUp]

theorem follow_append {passed : Place} (rest : List String) (h : tree.follow directory parts = .directory passed) :
    tree.follow directory (parts ++ rest) = tree.follow passed rest := by
  induction parts generalizing directory with
  | nil =>
    cases h
    rfl
  | cons part parts ih =>
    rw [List.cons_append, follow]
    rw [follow] at h
    split at h
    · exact ih h
    · split at h <;> cases h
    · split at h <;> cases h
    · cases h

/-- A path leads to a file through the directory of that file. -/
theorem follow_dropLast (h : tree.follow directory parts = .file place content executable) :
    tree.follow directory parts.dropLast = .directory place.dropLast := by
  induction parts generalizing directory with
  | nil => cases h
  | cons part parts ih =>
    unfold follow at h
    cases parts with
    | nil =>
      split at h
      · cases h
      · rename_i hpart
        cases h
        rw [(lookUp_file hpart).1]
        simp [follow]
      · cases h
      · cases h
    | cons next parts =>
      rw [List.dropLast_cons_cons, follow]
      split at h
      · exact ih h
      all_goals cases h

/-- A path seen from the directory of a file is followed from there. -/
theorem target_parent_join {p q : Path} (h : tree.target p = .file place content executable) (hq : q.root = "") :
    tree.target (p.parent.join q) =
      if q.hasNull then .blocked .nullInName
      else if pathLimit < (p.parent.join q).written.utf8ByteSize then .blocked .nameTooLong
      else tree.follow place.dropLast q.parts := by
  unfold target at h
  split at h
  · cases h
  rename_i hnull
  split at h
  · cases h
  have hjoin : p.parent.join q = ⟨p.root, p.parts.dropLast ++ q.parts⟩ := by simp [Path.join, Path.parent, hq]
  have hnull' : (Path.mk p.root (p.parts.dropLast ++ q.parts)).hasNull = q.hasNull := by
    have hfront : p.parts.dropLast.any (fun part => part.toList.contains '\x00') = false := by
      rw [List.any_eq_false]
      intro part hpart hcontains
      exact hnull (List.any_eq_true.2 ⟨part, List.dropLast_subset _ hpart, hcontains⟩)
    rw [Path.hasNull, List.any_append, hfront, Bool.false_or, Path.hasNull]
  rw [hjoin, target, hnull']
  split
  · rfl
  split
  · rfl
  exact follow_append q.parts (follow_dropLast h)

end FileTree

end AvmAssembler
