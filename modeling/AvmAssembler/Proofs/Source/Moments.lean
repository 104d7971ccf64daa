import Mathlib.Data.List.Dedup
import Mathlib.Data.List.Perm.Subperm
import Mathlib.Logic.Relation
import Mathlib.Order.WellFounded
import AvmAssembler.Proofs.Source.Splicing

/-! # Moments of reading

While a program is read, files are under way inside each other, and in each of them there are tokens ahead. A step takes
the next item of the innermost one, enters a file that is included, or goes on behind it once it has been read. No file
is entered that is under way already, so there are never more files under way than the tree has, and the steps come to
an end. A failure of any moment is the failure of the whole.
-/

namespace AvmAssembler

/-- The places of the files of a tree, each of them once. -/
def FileTree.files (tree : FileTree) : List Place :=
  (tree.places.filter fun place =>
    match tree.entryAt place with
    | some (.file ..) => true
    | _ => false).dedup

theorem FileTree.mem_files_of_target {tree : FileTree} {path : Path} {place : Place} {content : List UInt8} {x : Bool}
    (h : tree.target path = .file place content x) : place ∈ tree.files :=
  List.mem_dedup.2 (List.mem_filter.2 ⟨FileTree.mem_places_of_target h, by rw [FileTree.entryAt_of_target h]⟩)

namespace Unit

/-- A moment at which the innermost of the files that are being read is about to be read on: its name, the tokens ahead
and how they end, and what has been reported so far. -/
structure Moment where
  active : List ActiveFile
  file : String
  ending : Ending
  ahead : List Token
  journal : Journal

def Moment.outcome (env : Surroundings) (m : Moment) : EStateM.Result Abort Journal (List Statement) :=
  items env m.active m.file m.ending m.ahead m.journal

def entering (j : Journal) (path : Path) (keyword : Location) : Journal :=
  { j with log := j.log ++ [.including path.written keyword] }

/-- From one moment to the next: a statement is taken, a fault is recorded and the token behind it is skipped, a file is
entered, or it has been read and what stands behind its inclusion is next. -/
inductive Step (env : Surroundings) : Moment → Moment → Prop
  | statement {active file ending t tail s rest j} :
      (Grammar.item ending t tail).val = .read (.statement s) rest →
      Step env ⟨active, file, ending, t :: tail, j⟩ ⟨active, file, ending, rest, j⟩
  | recovery {active file ending t tail fault rest j k} :
      (Grammar.item ending t tail).val = .refused fault rest → fault.isFatal = false →
      Journal.report fault j = .ok () k →
      (∀ u after, rest = u :: after → ∀ f left, (Grammar.take ending u after).val ≠ .refused f left) →
      Step env ⟨active, file, ending, t :: tail, j⟩ ⟨active, file, ending, rest.tail, k⟩
  | enter {active file ending t tail keyword path l rest i stream j k} :
      (Grammar.item ending t tail).val = .read (.inclusion keyword path l) rest →
      open? env file active path l = .ok i →
      start i.path.written i.text (entering j i.path keyword) = .ok stream k →
      Step env ⟨active, file, ending, t :: tail, j⟩
        ⟨active ++ [⟨i.place, some l⟩], i.path.written, stream.2, stream.1, k⟩
  | leave {active file ending t tail keyword path l rest i inner j k} :
      (Grammar.item ending t tail).val = .read (.inclusion keyword path l) rest →
      open? env file active path l = .ok i →
      read env (active ++ [⟨i.place, some l⟩]) i.path.written i.text (entering j i.path keyword) = .ok inner k →
      Step env ⟨active, file, ending, t :: tail, j⟩ ⟨active, file, ending, rest, k⟩

abbrev Steps (env : Surroundings) : Moment → Moment → Prop := Relation.ReflTransGen (Step env)

/-- The moments of reading a program. -/
def Reached (env : Surroundings) (file text : String) (j : Journal) (m : Moment) : Prop :=
  ∃ active stream k, initiallyActive env file = .ok active ∧ start file text j = .ok stream k ∧
    Steps env ⟨active, file, stream.2, stream.1, k⟩ m

variable {env : Surroundings} {m m' : Moment}

/-! ## Steps come to an end -/

/-- The files that are not under way, and the tokens ahead. -/
def Moment.measure (env : Surroundings) (m : Moment) : Nat × Nat :=
  ((idlePlaces env.tree m.active).length, m.ahead.length)

theorem Step.measure_lt (h : Step env m m') : Prod.Lex (· < ·) (· < ·) (m'.measure env) (m.measure env) := by
  cases h with
  | @statement active file ending t tail s rest j hitem =>
    have hwithin := (Grammar.item ending t tail).property
    rw [hitem] at hwithin
    exact .right _ hwithin
  | @recovery active file ending t tail fault rest j k hitem _ _ _ =>
    have hwithin := (Grammar.item ending t tail).property
    rw [hitem] at hwithin
    have hle : rest.length ≤ (t :: tail).length := hwithin
    refine .right _ ?_
    simp only [List.length_tail, List.length_cons] at hle ⊢
    omega
  | enter _ _ _ => exact .left _ _ (idlePlaces_length_lt _ _)
  | @leave active file ending t tail keyword path l rest i inner j k hitem _ _ =>
    have hwithin := (Grammar.item ending t tail).property
    rw [hitem] at hwithin
    exact .right _ hwithin

theorem step_wellFounded (env : Surroundings) : WellFounded fun m' m => Step env m m' :=
  (InvImage.wf (Moment.measure env) (WellFounded.prod_lex wellFounded_lt wellFounded_lt)).mono fun _ _ h => h.measure_lt

/-! ## The files under way -/

/-- The files under way are different files of the tree. -/
structure Moment.Distinct (env : Surroundings) (m : Moment) : Prop where
  nodup : (m.active.map ActiveFile.place).Nodup
  files : ∀ place ∈ m.active.map ActiveFile.place, place ∈ env.tree.files

theorem Moment.Distinct.length_le (h : m.Distinct env) : m.active.length ≤ env.tree.files.length := by
  have hle := (List.Nodup.subperm h.nodup h.files).length_le
  rwa [List.length_map] at hle

theorem distinct_initial {file : String} {active : List ActiveFile} (h : initiallyActive env file = .ok active)
    (ending : Ending) (ahead : List Token) (j : Journal) : Moment.Distinct env ⟨active, file, ending, ahead, j⟩ := by
  rcases initiallyActive_eq_ok h with rfl | ⟨place, hplace, rfl⟩
  · exact ⟨.nil, by simp⟩
  · obtain ⟨content, x, htarget⟩ := FileTree.place?_eq_some.1 hplace
    exact ⟨by simp, by simpa using FileTree.mem_files_of_target htarget⟩

theorem Step.distinct (h : Step env m m') (hm : m.Distinct env) : m'.Distinct env := by
  cases h with
  | statement | recovery | leave => exact ⟨hm.nodup, hm.files⟩
  | @enter active file ending t tail keyword path l rest i stream j k _ hopen _ =>
    obtain ⟨content, hsought, hidle, -⟩ := open?_eq_ok_sought hopen
    obtain ⟨-, x, htarget⟩ := sought?_eq_some.1 hsought
    have hfile := FileTree.mem_files_of_target htarget
    refine ⟨?_, ?_⟩
    · rw [List.map_append, List.nodup_append]
      refine ⟨hm.nodup, by simp, fun p hp q hq heq => ?_⟩
      obtain rfl : q = i.place := by simpa using hq
      exact hidle (heq ▸ hp)
    · intro p hp
      rw [List.map_append] at hp
      rcases List.mem_append.1 hp with hp | hp
      · exact hm.files p hp
      · obtain rfl : p = i.place := by simpa using hp
        exact hfile

theorem Steps.distinct (h : Steps env m m') (hm : m.Distinct env) : m'.Distinct env := by
  induction h with
  | refl => exact hm
  | tail _ hstep ih => exact hstep.distinct ih

theorem Reached.distinct {file text : String} {j : Journal} (h : Reached env file text j m) : m.Distinct env := by
  obtain ⟨active, stream, k, hactive, -, hsteps⟩ := h
  exact Steps.distinct hsteps (distinct_initial hactive _ _ k)

/-! ## Failures -/

theorem resume_of_taken {active : List ActiveFile} {file : String} {ending : Ending} {rest : List Token}
    (h : ∀ u after, rest = u :: after → ∀ f left, (Grammar.take ending u after).val ≠ .refused f left) :
    resume env active file ending rest = items env active file ending rest.tail := by
  cases rest with
  | nil =>
    rw [List.tail_nil, items]
    rfl
  | cons u after =>
    rw [resume]
    split
    · rename_i htaken
      exact absurd htaken (h u after rfl _ _)
    · rfl

/-- Where the file of an inclusion is opened and starts well, entering it is reading its items and then on. -/
theorem enter_of_open {active : List ActiveFile} {file path : String} {keyword l : Location}
    {i : Inclusion env.tree active} (hopen : open? env file active path l = .ok i)
    (onward : Reporting (List Statement)) (j : Journal) :
    enter env active file path keyword l onward j =
      (do
        let inner ← read env (active ++ [⟨i.place, some l⟩]) i.path.written i.text
        let more ← onward
        pure (inner ++ more) : Reporting (List Statement)) (entering j i.path keyword) := by
  rw [enter, hopen]
  rfl

/-- A failure of the next moment is a failure of this one. -/
theorem Step.outcome_error {e : Abort} {k : Journal} (h : Step env m m') (he : m'.outcome env = .error e k) :
    m.outcome env = .error e k := by
  unfold Moment.outcome at he ⊢
  cases h with
  | statement hitem =>
    rw [items_of_statement hitem]
    exact bind_of_error he
  | recovery hitem hfatal hreport htaken =>
    rw [items_of_refusal hitem, if_neg (by simp [hfatal]), bind_of_ok hreport, resume_of_taken htaken]
    exact he
  | enter hitem hopen hstart =>
    rw [items_of_inclusion hitem, enter_of_open hopen, read]
    exact bind_of_error ((bind_of_ok hstart).trans (bind_of_error he))
  | leave hitem hopen hread =>
    rw [items_of_inclusion hitem, enter_of_open hopen, bind_of_ok hread]
    exact bind_of_error he

theorem Steps.outcome_error {e : Abort} {k : Journal} (h : Steps env m m') (he : m'.outcome env = .error e k) :
    m.outcome env = .error e k := by
  induction h with
  | refl => exact he
  | tail _ hstep ih => exact ih (hstep.outcome_error he)

/-- A failure of any moment is the failure of the whole. -/
theorem Reached.read_error {file text : String} {j k : Journal} {e : Abort} (h : Reached env file text j m)
    (he : m.outcome env = .error e k) : Program.read env file text j = .error e k := by
  obtain ⟨active, stream, begun, hactive, hstart, hsteps⟩ := h
  have hitems := Steps.outcome_error hsteps he
  have hread : read env active file text j = .error e k := by
    rw [read, bind_of_ok hstart]
    exact bind_of_error hitems
  rw [Program.read_of_active hactive]
  exact bind_of_error hread

/-- Why reading fails at a moment itself: the item ahead has no value, or its fault is fatal or cannot be recorded, or
there is nothing well formed behind it, or the file of an inclusion ahead is not opened, or its text starts with
something malformed. -/
inductive Halts (env : Surroundings) : Moment → Abort → Journal → Prop
  | unreadable {active file ending t tail e j} : (Grammar.item ending t tail).val = .unreadable e →
      Halts env ⟨active, file, ending, t :: tail, j⟩ (.numeral e) j
  | fatal {active file ending t tail fault rest e j k} : (Grammar.item ending t tail).val = .refused fault rest →
      fault.isFatal = true → (Journal.stop fault : Reporting Unit) j = .error e k →
      Halts env ⟨active, file, ending, t :: tail, j⟩ e k
  | unrecorded {active file ending t tail fault rest e j k} : (Grammar.item ending t tail).val = .refused fault rest →
      fault.isFatal = false → Journal.report fault j = .error e k →
      Halts env ⟨active, file, ending, t :: tail, j⟩ e k
  | behind {active file ending t tail fault f u after left e j k l} :
      (Grammar.item ending t tail).val = .refused fault (u :: after) → fault.isFatal = false →
      Journal.report fault j = .ok () k → (Grammar.take ending u after).val = .refused f left →
      (Journal.stop f : Reporting Unit) k = .error e l →
      Halts env ⟨active, file, ending, t :: tail, j⟩ e l
  | inclusion {active file ending t tail keyword path l rest obstacle e j k} :
      (Grammar.item ending t tail).val = .read (.inclusion keyword path l) rest →
      open? env file active path l = .error obstacle → (Journal.giveUp obstacle : Reporting Unit) j = .error e k →
      Halts env ⟨active, file, ending, t :: tail, j⟩ e k
  | included {active file ending t tail keyword path l rest i e j k} :
      (Grammar.item ending t tail).val = .read (.inclusion keyword path l) rest →
      open? env file active path l = .ok i →
      start i.path.written i.text (entering j i.path keyword) = .error e k →
      Halts env ⟨active, file, ending, t :: tail, j⟩ e k

theorem stop_eq {α : Type} (β : Type) {fault : Fault} {j k : Journal} {e : Abort}
    (h : (Journal.stop fault : Reporting α) j = .error e k) : (Journal.stop fault : Reporting β) j = .error e k := by
  rcases bind_eq_error_cases h with hreport | ⟨_, l, hreport, hthrow⟩
  · exact bind_of_error hreport
  · cases hthrow
    exact bind_of_ok hreport

theorem exists_stop_eq (fault : Fault) (j : Journal) :
    ∃ e k, ∀ {α : Type}, (Journal.stop fault : Reporting α) j = .error e k := by
  cases h : (Journal.stop fault : Reporting Unit) j with
  | ok _ _ => exact (stop_ne_ok h).elim
  | error e k => exact ⟨e, k, stop_eq _ h⟩

theorem giveUp_eq {α : Type} (β : Type) {obstacle : Obstacle} {j k : Journal} {e : Abort}
    (h : (Journal.giveUp obstacle : Reporting α) j = .error e k) :
    (Journal.giveUp obstacle : Reporting β) j = .error e k := by
  cases obstacle with
  | fault fault => exact stop_eq β h
  | search e =>
    cases h
    rfl

theorem exists_giveUp_eq (obstacle : Obstacle) (j : Journal) :
    ∃ e k, ∀ {α : Type}, (Journal.giveUp obstacle : Reporting α) j = .error e k := by
  cases h : (Journal.giveUp obstacle : Reporting Unit) j with
  | ok _ _ => exact (giveUp_ne_ok h).elim
  | error e k => exact ⟨e, k, giveUp_eq _ h⟩

/-- Where reading fails at a moment itself, this is what it comes to. -/
theorem Halts.outcome_eq {e : Abort} {k : Journal} (h : Halts env m e k) : m.outcome env = .error e k := by
  unfold Moment.outcome
  cases h with
  | unreadable hitem =>
    rw [items_of_unreadable hitem]
    rfl
  | fatal hitem hfatal hstop =>
    rw [items_of_refusal hitem, if_pos hfatal]
    exact stop_eq _ hstop
  | unrecorded hitem hfatal hreport =>
    rw [items_of_refusal hitem, if_neg (by simp [hfatal])]
    exact bind_of_error hreport
  | behind hitem hfatal hreport htake hstop =>
    rw [items_of_refusal hitem, if_neg (by simp [hfatal]), bind_of_ok hreport, resume, htake]
    exact stop_eq _ hstop
  | inclusion hitem hopen hgiveUp =>
    rw [items_of_inclusion hitem, enter, hopen]
    exact giveUp_eq _ hgiveUp
  | included hitem hopen hstart =>
    rw [items_of_inclusion hitem, enter_of_open hopen, read]
    exact bind_of_error (bind_of_error hstart)

/-- At a moment nothing is ahead, or reading fails there, or there is a next moment; if reading fails later, there is
one from which it does. -/
theorem Moment.progress (env : Surroundings) (m : Moment) :
    m.ahead = [] ∨ (∃ e k, Halts env m e k) ∨
      ∃ m', Step env m m' ∧ ∀ e k, m.outcome env = .error e k → m'.outcome env = .error e k := by
  obtain ⟨active, file, ending, ahead, j⟩ := m
  cases ahead with
  | nil => exact .inl rfl
  | cons t tail =>
    refine .inr ?_
    unfold Moment.outcome
    cases hitem : (Grammar.item ending t tail).val with
    | unreadable e => exact .inl ⟨_, _, .unreadable hitem⟩
    | refused fault rest =>
      by_cases hfatal : fault.isFatal = true
      · obtain ⟨e, k, hstop⟩ := exists_stop_eq fault j
        exact .inl ⟨e, k, .fatal hitem hfatal hstop⟩
      · rw [Bool.not_eq_true] at hfatal
        cases hreport : Journal.report fault j with
        | error e k => exact .inl ⟨e, k, .unrecorded hitem hfatal hreport⟩
        | ok _ k =>
          by_cases htaken : ∀ u after, rest = u :: after → ∀ f left, (Grammar.take ending u after).val ≠ .refused f left
          · refine .inr ⟨_, .recovery hitem hfatal hreport htaken, fun e l he => ?_⟩
            rwa [items_of_refusal hitem, if_neg (by simp [hfatal]), bind_of_ok hreport, resume_of_taken htaken] at he
          · push Not at htaken
            obtain ⟨u, after, rfl, f, left, htake⟩ := htaken
            obtain ⟨e, l, hstop⟩ := exists_stop_eq f k
            exact .inl ⟨e, l, .behind hitem hfatal hreport htake hstop⟩
    | read i rest =>
      cases i with
      | statement s =>
        refine .inr ⟨_, .statement hitem, fun e k he => ?_⟩
        rw [items_of_statement hitem] at he
        exact error_of_bind (fun _ _ => ⟨_, _, rfl⟩) he
      | inclusion keyword path l =>
        rw [items_of_inclusion hitem]
        cases hopen : open? env file active path l with
        | error obstacle =>
          obtain ⟨e, k, hgiveUp⟩ := exists_giveUp_eq obstacle j
          exact .inl ⟨e, k, .inclusion hitem hopen hgiveUp⟩
        | ok i =>
          rw [enter_of_open hopen]
          cases hread : read env (active ++ [⟨i.place, some l⟩]) i.path.written i.text (entering j i.path keyword) with
          | ok inner k =>
            refine .inr ⟨_, .leave hitem hopen hread, fun e k he => ?_⟩
            rw [bind_of_ok hread] at he
            exact error_of_bind (fun _ _ => ⟨_, _, rfl⟩) he
          | error e k =>
            cases hstart : start i.path.written i.text (entering j i.path keyword) with
            | error e k => exact .inl ⟨e, k, .included hitem hopen hstart⟩
            | ok stream k =>
              refine .inr ⟨_, .enter hitem hopen hstart, fun e k he => ?_⟩
              rw [bind_of_error hread, ← hread, read, bind_of_ok hstart] at he
              exact error_of_bind (fun _ _ => ⟨_, _, rfl⟩) he

/-- A failure comes from some moment itself. -/
theorem exists_halts {e : Abort} {k : Journal} (m : Moment) (h : m.outcome env = .error e k) :
    ∃ m', Steps env m m' ∧ Halts env m' e k := by
  induction m using (step_wellFounded env).induction with
  | _ m ih =>
    rcases m.progress env with hnil | ⟨e', k', hhalts⟩ | ⟨m', hstep, hlater⟩
    · unfold Moment.outcome at h
      rw [hnil, items] at h
      cases h
    · have heq := hhalts.outcome_eq.symm.trans h
      cases heq
      exact ⟨m, .refl, hhalts⟩
    · obtain ⟨last, hsteps, hhalts⟩ := ih m' hstep (hlater e k h)
      exact ⟨last, .head hstep hsteps, hhalts⟩

/-- Reading a program fails since the search for its source is cut short, or at its start, or at one of its moments. -/
theorem read_error_iff {file text : String} {j k : Journal} {e : Abort} :
    Program.read env file text j = .error e k ↔
      (∃ e', initiallyActive env file = .error e' ∧ e = .search e' ∧ k = j) ∨
      (CanStart env file ∧ start file text j = .error e k) ∨
      ∃ m, Reached env file text j m ∧ Halts env m e k := by
  constructor
  · intro h
    cases hactive : initiallyActive env file with
    | error e' =>
      rw [Program.read_of_search hactive] at h
      cases h
      exact .inl ⟨e', rfl, rfl, rfl⟩
    | ok active =>
      refine .inr ?_
      rw [Program.read_of_active hactive] at h
      have hread : read env active file text j = .error e k := error_of_bind (fun _ _ => ⟨_, _, rfl⟩) h
      rw [read] at hread
      rcases bind_eq_error_cases hread with hstart | ⟨stream, begun, hstart, hinner⟩
      · exact .inl ⟨⟨active, hactive⟩, hstart⟩
      · obtain ⟨m, hsteps, hhalts⟩ := exists_halts ⟨active, file, stream.2, stream.1, begun⟩
          (error_of_bind (fun _ _ => ⟨_, _, rfl⟩) hinner)
        exact .inr ⟨m, ⟨active, stream, begun, hactive, hstart, hsteps⟩, hhalts⟩
  · rintro (⟨e', hactive, rfl, rfl⟩ | ⟨⟨active, hactive⟩, hstart⟩ | ⟨m, hreached, hhalts⟩)
    · rw [Program.read_of_search hactive]
      rfl
    · have hread : read env active file text j = .error e k := by
        rw [read]
        exact bind_of_error hstart
      rw [Program.read_of_active hactive]
      exact bind_of_error hread
    · exact hreached.read_error hhalts.outcome_eq

/-! ## Inclusions -/

def Moment.Includes (m : Moment) (path : String) (l : Location) : Prop :=
  ∃ t tail keyword rest, m.ahead = t :: tail ∧
    (Grammar.item m.ending t tail).val = .read (.inclusion keyword path l) rest

/-- Where the file of the inclusion ahead is not opened, reading ends. -/
theorem Reached.read_giveUp {file text path : String} {j : Journal} {l : Location} {obstacle : Obstacle}
    (h : Reached env file text j m) (hincludes : m.Includes path l)
    (hopen : open? env m.file m.active path l = .error obstacle) :
    Program.read env file text j = (Journal.giveUp obstacle : Reporting Program) m.journal := by
  obtain ⟨t, tail, keyword, rest, hahead, hitem⟩ := hincludes
  obtain ⟨e, k, hgiveUp⟩ := exists_giveUp_eq obstacle m.journal
  obtain ⟨active, inner, ending, ahead, journal⟩ := m
  cases hahead
  rw [h.read_error (Halts.inclusion hitem hopen hgiveUp).outcome_eq, hgiveUp]

end Unit

/-- In a finite tree the steps of reading come to an end: at every moment nothing is ahead, or reading fails there, or
there is a next moment, and whenever reading a program fails, it fails at its start or at a moment that it reaches. The
files under way then are different files of the tree, so their number is at most that of the files. If the file of an
inclusion ahead is not opened, reading ends. A file that is found stands at the place that its path spells, seen from
the root; it is refused as circular exactly if that place is under way, and if it is not, and the content is text, the
file is read. So a spelling counts for what it resolves to, be it relative, through parents or absolute. -/
theorem Program.read_moments (env : Surroundings) (file text : String) (j : Journal) :
    (WellFounded fun m' m => Unit.Step env m m') ∧
    (∀ m : Unit.Moment, m.ahead = [] ∨ (∃ e k, Unit.Halts env m e k) ∨ ∃ m', Unit.Step env m m') ∧
    (∀ e k, Program.read env file text j = .error e k ↔
      (∃ e', Unit.initiallyActive env file = .error e' ∧ e = .search e' ∧ k = j) ∨
      (Unit.CanStart env file ∧ Unit.start file text j = .error e k) ∨
      ∃ m, Unit.Reached env file text j m ∧ Unit.Halts env m e k) ∧
    (∀ place content x, env.tree.target (Path.ofString file) = .file place content x → file ≠ FileTree.inputName →
      Unit.initiallyActive env file = .ok [⟨env.tree.resolve (Path.ofString file), none⟩]) ∧
    ∀ m, Unit.Reached env file text j m →
      (m.active.map ActiveFile.place).Nodup ∧ m.active.length ≤ env.tree.files.length ∧
      ∀ path l, m.Includes path l →
        (∀ obstacle, Unit.open? env m.file m.active path l = .error obstacle →
          Program.read env file text j = (Journal.giveUp obstacle : Reporting Program) m.journal) ∧
        (∀ e, Unit.open? env m.file m.active path l = .error (.search e) ↔
          env.tree.find? path m.file env.searchPaths = .error e) ∧
        ∀ r place content, Unit.sought? env m.file path = .ok (some (r, place, content)) →
          place = env.tree.resolve r ∧
          ((∃ notes, Unit.open? env m.file m.active path l =
              .error (.fault (Unit.inclusionFault path l .circular notes))) ↔
            env.tree.resolve r ∈ m.active.map ActiveFile.place) ∧
          ∀ included, env.tree.resolve r ∉ m.active.map ActiveFile.place →
            FileTree.textOf content = .ok included →
              ∃ i, Unit.open? env m.file m.active path l = .ok i ∧ i.path = r ∧ i.text = included ∧
                i.place = env.tree.resolve r := by
  refine ⟨Unit.step_wellFounded env, fun m => ?_, fun e k => Unit.read_error_iff, ?_, fun m hreached => ?_⟩
  · rcases m.progress env with hnil | hhalts | ⟨m', hstep, -⟩
    · exact .inl hnil
    · exact .inr (.inl hhalts)
    · exact .inr (.inr ⟨m', hstep⟩)
  · intro place content x htarget hfile
    have hplace : env.tree.place? (Path.ofString file) = .ok (some place) :=
      FileTree.place?_eq_some.2 ⟨content, x, htarget⟩
    rw [Unit.initiallyActive, if_neg hfile, hplace, FileTree.target_file htarget]
    rfl
  · have hdistinct := hreached.distinct
    refine ⟨hdistinct.nodup, hdistinct.length_le, fun path l hincludes => ⟨fun obstacle hopen => ?_, ?_, ?_⟩⟩
    · exact hreached.read_giveUp hincludes hopen
    · exact fun e => Unit.open?_eq_search_iff
    · intro r place content hsought
      obtain ⟨-, x, htarget⟩ := Unit.sought?_eq_some.1 hsought
      obtain rfl := FileTree.target_file htarget
      refine ⟨rfl, Unit.open?_circular_iff hsought, fun included hidle htext => ?_⟩
      exact Unit.exists_open?_eq_ok hsought hidle htext

/-- A file that includes itself, by a path through the parent of the working directory. -/
theorem Program.read_moments_self :
    let content := (inclusionLine "../work/a").toUTF8.toList
    let env : Surroundings :=
      ⟨{ entries := [(["tmp", "work", "a"], .file content false)], directory := ["tmp", "work"] }, []⟩
    FileTree.textOf content = .ok (inclusionLine "../work/a") ∧ ∃ m path l notes,
      Unit.Reached env "a" (inclusionLine "../work/a") {} m ∧ m.Includes path l ∧
      m.active.length = env.tree.files.length ∧
      Unit.sought? env m.file path = .ok (some (Path.ofString "../work/a", ["tmp", "work", "a"], content)) ∧
      Program.read env "a" (inclusionLine "../work/a") {} =
        (Journal.stop (Unit.inclusionFault path l .circular notes) : Reporting Program) m.journal := by
  intro content env
  have htext : FileTree.textOf content = .ok (inclusionLine "../work/a") := by decide +kernel
  have hpath : IsPlainPath "../work/a" := by simp [IsPlainPath]
  obtain ⟨keyword, l, last, hlast, hitems⟩ := Unit.inclusionLine_fallsInto hpath "a"
  have hsought : Unit.sought? env "a" "../work/a" =
      .ok (some (Path.ofString "../work/a", ["tmp", "work", "a"], content)) := by decide +kernel
  have hfiles : env.tree.files.length = 1 := by decide +kernel
  generalize hstream : tokenize "a" (inclusionLine "../work/a") = stream at hlast hitems
  obtain ⟨ahead, ending⟩ := stream
  cases hitems with
  | @cons t rest left _ _ hitem hleft =>
    let begun : Journal := { log := [.parsing "a"] }
    let m : Unit.Moment := ⟨[⟨["tmp", "work", "a"], none⟩], "a", .complete last, t :: rest, begun⟩
    have hstart : Unit.start "a" (inclusionLine "../work/a") {} = .ok (t :: rest, .complete last) begun := by
      unfold Unit.start
      rw [hstream, ← hlast]
      rfl
    obtain ⟨-, -, -, hsource, hmoments⟩ := read_moments env "a" (inclusionLine "../work/a") {}
    have hactive : Unit.initiallyActive env "a" = .ok [⟨["tmp", "work", "a"], none⟩] :=
      hsource ["tmp", "work", "a"] content false (by decide +kernel) (by decide)
    have hreached : Unit.Reached env "a" (inclusionLine "../work/a") {} m := ⟨_, _, begun, hactive, hstart, .refl⟩
    have hincludes : m.Includes "../work/a" l := ⟨t, rest, keyword, left, rfl, hitem⟩
    obtain ⟨-, -, hinclusions⟩ := hmoments m hreached
    obtain ⟨hrefused, -, hsame⟩ := hinclusions "../work/a" l hincludes
    have hplace : env.tree.resolve (Path.ofString "../work/a") ∈ [(["tmp", "work", "a"] : Place)] := by decide +kernel
    obtain ⟨notes, hopen⟩ := (hsame _ _ _ hsought).2.1.2 hplace
    exact ⟨htext, m, "../work/a", l, notes, hreached, hincludes, hfiles.symm, hsought, hrefused _ hopen⟩

end AvmAssembler
